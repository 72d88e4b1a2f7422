import OsExercises.Uthreads.Context

/-!
# Which thread runs next

The timer, a thread that suspends itself and a thread that ends itself make the library choose the
next thread.  It takes the head of the first ready queue that is not empty, and a thread enters a
ready queue at its end.

* `Act.selects` says which acts choose, and `Act.enters` which thread an act makes ready.
  `Effect.ready_eq`, `Effect.stays` and `Effect.chosen` say what this does to the queues and to the
  running thread.
* `meets_respects_iff` says in which runs a choice always respects the priorities: `switchThreads`
  queues the former running thread after it has chosen, so that thread is not among the candidates.
-/

set_option autoImplicit false

namespace Uthreads

variable {s t : Lib} {p q r : ThreadPtr} {i j : Fin numOfQueue} {rest : List ThreadPtr}
  {a : Act} {x : Exit} {e : Event}

/-! ## Choosing and becoming ready -/

instance (s : Lib) : Decidable s.Idle := inferInstanceAs (Decidable (∀ i, s.ready i = []))

/-- The running thread has this id. -/
def Lib.ownId (s : Lib) (tid : ℤ) : Bool := s.running.any fun r ↦ (s.heap r).tid = tid

/-- The acts that choose the next thread. -/
def Act.selects (s : Lib) : Act → Bool
  | .tick => true
  | .land => s.running.any fun r ↦ (s.heap r).jmpBuf.place = .suspend
  | .body (.suspend tid) => s.ownId tid
  | .body (.terminate tid) => s.ownId tid
  | .body _ => false

/-- The thread an act makes ready: the preempted one if another takes over, a new one, or a resumed
one. -/
def Act.enters (s : Lib) : Act → Option ThreadPtr
  | .tick => if s.Idle then none else s.running
  | .land => none
  | .body (.spawn _) => some s.brk
  | .body (.resume tid) => s.threads[tid]?
  | .body _ => none

/-- The checks of the event, if it is a call, are passed. -/
def Event.passes (s : Lib) : Event → Bool
  | .call c => (check s c).isNone
  | _ => true

/-- The events that choose the next thread. -/
def selects (s : Lib) (e : Event) : Bool := e.passes s && e.toAct.selects s

/-- The thread an event makes ready. -/
def enters (s : Lib) (e : Event) : Option ThreadPtr :=
  if e.passes s then e.toAct.enters s else none

/-- The event takes a thread out of its queue by `uthread_suspend` or `uthread_terminate`. -/
def Removes (s : Lib) (p : ThreadPtr) (e : Event) : Prop :=
  ∃ tid, (e = .call (.suspend tid) ∨ e = .call (.terminate tid)) ∧ s.threads[tid]? = some p

theorem ownId_iff (hr : s.running = some r) {tid : ℤ} :
    s.ownId tid = true ↔ (s.heap r).tid = tid := by simp [Lib.ownId, hr]

theorem Wf.ownId_eq_false (h : Wf [] s) {tid : ℤ} (hp : s.threads[tid]? = some p)
    (hne : s.running ≠ some p) : s.ownId tid = false := by
  cases hr : s.running with
  | none => simp [Lib.ownId, hr]
  | some r => simpa [Lib.ownId, hr] using (h.tid_ne_running hr hp hne).symm

/-- The head of the first queue that is not empty comes from the first one. -/
theorem Lib.First.le (h : s.First i p rest) (hq : q ∈ s.ready j) : i ≤ j := by
  by_contra hlt
  rw [h.2 j (not_le.mp hlt)] at hq
  cases hq

/-! ## What an effect does to the queues -/

@[simp] theorem setReady_ready (s : Lib) (l : List ThreadPtr) :
    (s.setReady i l).ready j = if j = i then l else s.ready j := by
  by_cases h : j = i
  · subst h
    simp
  · simp [h]

@[simp] theorem giveWay_ready (s : Lib) :
    (s.giveWay i p rest).ready j = if j = i then rest else s.ready j := by
  simp [Lib.giveWay]

@[simp] theorem pushReady_ready (s : Lib) :
    (s.pushReady i p).ready j = if j = i then s.ready i ++ [p] else s.ready j := by
  simp [Lib.pushReady]

/-- Priorities do not change. -/
theorem Effect.pr_eq (he : Effect s a x t) (hq : q < s.brk) :
    (t.heap q).pr = (s.heap q).pr := by
  have hsave : ∀ (u : Lib) (r : ThreadPtr) (place : SavePoint),
      ((u.saveBuf r place).heap q).pr = (u.heap q).pr := fun u r place ↦ by
    by_cases hqr : q = r
    · simp [hqr]
    · simp [hqr]
  have hset : ∀ (u : Lib) (r : ThreadPtr) (st : State),
      ((u.setState r st).heap q).pr = (u.heap q).pr := fun u r st ↦ (setState_heap u r q st).2.1
  have hstart : ∀ (u : Lib) (r : ThreadPtr), ((startQuantum u r).heap q).pr = (u.heap q).pr :=
    fun u r ↦ (startQuantum_heap u r q).2.1
  have hgive : ∀ (u : Lib) (i : Fin numOfQueue) (p : ThreadPtr) (rest : List ThreadPtr),
      ((u.giveWay i p rest).heap q).pr = (u.heap q).pr := fun u i p rest ↦ hstart _ _
  cases he with
  | spawn hr pr => rw [sigUnblock_heap, spawned_heap _ pr (by exact hq), sigBlock_heap]
  | _ => simp [hsave, hset, hstart, hgive]

/-- A thread is pushed at the end of its queue, whatever else has changed. -/
theorem pushReady_ready_of_eq {u : Lib} (hu : u.ready = s.ready) (k : Fin numOfQueue)
    (p : ThreadPtr) :
    (u.pushReady k p).ready j = if j = k then s.ready j ++ [p] else s.ready j := by
  rw [pushReady_ready, hu]
  split
  · rename_i hj
    rw [hj]
  · rfl

/-- **A queue loses threads from anywhere and gains at most one, at its end.** -/
theorem Effect.ready_eq (he : Effect s a x t) (j : Fin numOfQueue) :
    ∃ l, l.Sublist (s.ready j) ∧
      (t.ready j = l ∨ ∃ p, a.enters s = some p ∧ t.ready j = l ++ [p]) := by
  have hsub : ∀ {i p rest}, s.First i p rest →
      (if j = i then rest else s.ready j).Sublist (s.ready j) := fun {i p rest} hf ↦ by
    split
    · rename_i hj
      rw [hj, hf.1]
      exact List.sublist_cons_self _ _
    · exact .refl _
  have herase : ∀ (k : Fin numOfQueue) (p : ThreadPtr),
      (if j = k then (s.ready k).erase p else s.ready j).Sublist (s.ready j) := fun k p ↦ by
    split
    · rename_i hj
      rw [hj]
      exact List.erase_sublist
    · exact .refl _
  cases he with
  | @tickFirst r p i rest hr hf =>
    refine ⟨_, hsub hf, ?_⟩
    have henters : Act.enters s .tick = some r := by rw [Act.enters, if_neg hf.not_idle, hr]
    by_cases hj : j = queueOf (s.heap r).pr
    · refine .inr ⟨r, henters, ?_⟩
      rw [pushReady_ready, if_pos hj, giveWay_ready, hj]
      rfl
    · refine .inl ?_
      rw [pushReady_ready, if_neg hj, giveWay_ready]
      rfl
  | tickIdle => exact ⟨_, .refl _, .inl rfl⟩
  | landUser => exact ⟨_, .refl _, .inl rfl⟩
  | landSuspend hr hp hf => exact ⟨_, hsub hf, .inl (giveWay_ready _)⟩
  | spawn hr pr =>
    refine ⟨s.ready j, .refl _, ?_⟩
    have hready : (s.sigBlock.spawned pr).sigUnblock.ready j =
        if j = queueOf pr then s.ready j ++ [s.brk] else s.ready j :=
      pushReady_ready_of_eq rfl _ _
    rw [hready]
    split
    · exact .inr ⟨_, rfl, rfl⟩
    · exact .inl rfl
  | @terminateRunning r p i rest tid hr htid hne hf =>
    exact ⟨_, hsub hf, .inl (giveWay_ready (p := p) (s.sigBlock.setState r .ready))⟩
  | @terminateReady p tid hp hne hmem => exact ⟨_, herase _ p, .inl (setReady_ready _ _)⟩
  | terminateBlocked => exact ⟨_, .refl _, .inl rfl⟩
  | suspendRunning hr htid hne hf => exact ⟨_, hsub hf, .inl (giveWay_ready _)⟩
  | @suspendReady p tid hp hne hmem => exact ⟨_, herase _ p, .inl (setReady_ready _ _)⟩
  | suspendBlocked => exact ⟨_, .refl _, .inl rfl⟩
  | @resume p tid hp hmem =>
    refine ⟨s.ready j, .refl _, ?_⟩
    have hready : ((({ s with blocked := s.blocked.erase p }.setState p .ready).pushReady
        (queueOf (s.heap p).pr) p).sigUnblock).ready j =
          if j = queueOf (s.heap p).pr then s.ready j ++ [p] else s.ready j :=
      pushReady_ready_of_eq rfl _ _
    rw [hready]
    split
    · exact .inr ⟨_, hp, rfl⟩
    · exact .inl rfl

/-- The acts that choose are those that end in `running->loadBuf()`. -/
theorem Effect.selects_iff (he : Effect s a x t) (h : Wf [] s) :
    a.selects s = true ↔ x = .jump := by
  have hready : ∀ {p i}, p ∈ s.ready i → s.running ≠ some p := fun {p i} hp hr ↦
    (h.running_alone hr).1 i hp
  cases he with
  | tickFirst => exact iff_of_true rfl rfl
  | tickIdle => exact iff_of_true rfl rfl
  | landUser hr hp => exact iff_of_false (by simp [Act.selects, hr, hp]) (by simp)
  | landSuspend hr hp hf => exact iff_of_true (by simp [Act.selects, hr, hp]) rfl
  | spawn => exact iff_of_false (by simp [Act.selects]) (by simp)
  | terminateRunning hr htid hne hf => exact iff_of_true ((ownId_iff hr).mpr htid) rfl
  | terminateReady hp hne hmem =>
    exact iff_of_false (by simp [Act.selects, h.ownId_eq_false hp (hready hmem)]) (by simp)
  | terminateBlocked hp hne hmem =>
    have hown := h.ownId_eq_false hp (h.blocked_alone hmem).1
    exact iff_of_false (by simp [Act.selects, hown]) (by simp)
  | suspendRunning hr htid hne hf => exact iff_of_true ((ownId_iff hr).mpr htid) rfl
  | suspendReady hp hne hmem =>
    exact iff_of_false (by simp [Act.selects, h.ownId_eq_false hp (hready hmem)]) (by simp)
  | suspendBlocked hp hmem =>
    have hown := h.ownId_eq_false hp (h.blocked_alone hmem).1
    exact iff_of_false (by simp [Act.selects, hown]) (by simp)
  | resume => exact iff_of_false (by simp [Act.selects]) (by simp)

/-- **Whom a choice falls on**: the head of the first queue that is not empty, or the running thread
if no thread is ready. -/
theorem Effect.chosen (he : Effect s a .jump t) :
    (∃ i p rest, s.First i p rest ∧ t.running = some p) ∨
      (s.Idle ∧ t.Idle ∧ t.running = s.running) := by
  cases he with
  | tickFirst hr hf => exact .inl ⟨_, _, _, hf, rfl⟩
  | tickIdle hr hidle => exact .inr ⟨hidle, hidle, rfl⟩
  | landSuspend hr hp hf => exact .inl ⟨_, _, _, hf, rfl⟩
  | terminateRunning hr htid hne hf => exact .inl ⟨_, _, _, hf, rfl⟩
  | suspendRunning hr htid hne hf => exact .inl ⟨_, _, _, hf, rfl⟩

/-- A ready thread stays ready unless it is switched in or taken out of its queue. -/
theorem Effect.stays (he : Effect s a x t) (hq : q ∈ s.ready j) :
    q ∈ t.ready j ∨ t.running = some q ∨
      ∃ tid, (a = .body (.suspend tid) ∨ a = .body (.terminate tid)) ∧
        s.threads[tid]? = some q := by
  have hrest : ∀ {i p rest}, s.First i p rest →
      q ∈ (if j = i then rest else s.ready j) ∨ p = q := fun {i p rest} hf ↦ by
    split
    · rename_i hj
      rw [hj, hf.1] at hq
      exact (List.mem_cons.mp hq).symm.imp_right Eq.symm
    · exact .inl hq
  have herase : ∀ (k : Fin numOfQueue) (p : ThreadPtr),
      q ∈ (if j = k then (s.ready k).erase p else s.ready j) ∨ p = q := fun k p ↦ by
    by_cases hqp : q = p
    · exact .inr hqp.symm
    · refine .inl ?_
      split
      · rename_i hj
        rw [hj] at hq
        exact (List.mem_erase_of_ne hqp).mpr hq
      · exact hq
  have hpush : ∀ (u : Lib) (k : Fin numOfQueue) (p : ThreadPtr),
      q ∈ u.ready j → q ∈ (u.pushReady k p).ready j := fun u k p hqu ↦ by
    rw [pushReady_ready]
    split
    · rename_i hj
      exact List.mem_append_left _ (hj ▸ hqu)
    · exact hqu
  cases he with
  | tickFirst hr hf =>
    refine (hrest hf).imp (fun hmem ↦ hpush _ _ _ ?_) fun hp ↦ .inl (congrArg some hp)
    rw [giveWay_ready]
    exact hmem
  | tickIdle => exact .inl hq
  | landUser => exact .inl hq
  | landSuspend hr hp hf =>
    refine (hrest hf).imp (fun hmem ↦ ?_) fun hp ↦ .inl (congrArg some hp)
    rw [giveWay_ready]
    exact hmem
  | spawn hr pr => exact .inl (hpush _ _ _ hq)
  | @terminateRunning r p i rest tid hr htid hne hf =>
    refine (hrest hf).imp (fun hmem ↦ ?_) fun hp ↦ .inl (congrArg some hp)
    exact (giveWay_ready (p := p) (s.sigBlock.setState r .ready)).symm ▸ hmem
  | @terminateReady p tid hp hne hmem =>
    refine (herase _ p).imp (fun hmem ↦ (setReady_ready _ _).symm ▸ hmem) fun hpq ↦ .inr ?_
    exact ⟨tid, .inr rfl, hpq ▸ hp⟩
  | terminateBlocked => exact .inl hq
  | suspendRunning hr htid hne hf =>
    refine (hrest hf).imp (fun hmem ↦ ?_) fun hp ↦ .inl (congrArg some hp)
    rw [giveWay_ready]
    exact hmem
  | @suspendReady p tid hp hne hmem =>
    refine (herase _ p).imp (fun hmem ↦ (setReady_ready _ _).symm ▸ hmem) fun hpq ↦ .inr ?_
    exact ⟨tid, .inl rfl, hpq ▸ hp⟩
  | suspendBlocked => exact .inl hq
  | resume hp hmem => exact .inl (hpush _ _ _ hq)

/-- A thread that becomes ready was in no ready queue. -/
theorem Effect.enters_fresh (he : Effect s a x t) (h : Wf [] s) (hp : a.enters s = some p)
    (j : Fin numOfQueue) : p ∉ s.ready j := by
  intro hmem
  have hlive := h.live_of_ready hmem
  cases he with
  | tickFirst hr hf =>
    rw [Act.enters, if_neg hf.not_idle] at hp
    exact (h.running_alone hp).1 j hmem
  | tickIdle hr hidle => simp [Act.enters, hidle] at hp
  | landUser => cases hp
  | landSuspend => cases hp
  | spawn =>
    cases hp
    exact lt_irrefl _ (h.lt_brk _ _ hlive)
  | terminateRunning => cases hp
  | terminateReady => cases hp
  | terminateBlocked => cases hp
  | suspendRunning => cases hp
  | suspendReady => cases hp
  | suspendBlocked => cases hp
  | resume hp' hmem' =>
    cases hp'.symm.trans hp
    exact (h.blocked_alone hmem').2 j hmem

/-- Whoever is ready after an act was ready before or is the thread it makes ready. -/
theorem Effect.mem_ready (he : Effect s a x t) (hq : q ∈ t.ready j) :
    q ∈ s.ready j ∨ a.enters s = some q := by
  obtain ⟨l, hl, heq | ⟨p, hp, heq⟩⟩ := he.ready_eq j
  · rw [heq] at hq
    exact .inl (hl.subset hq)
  · rw [heq] at hq
    rcases List.mem_append.mp hq with hq | hq
    · exact .inl (hl.subset hq)
    · rw [List.mem_singleton.mp hq]
      exact .inr hp

/-- **What a step of a run can do**, with what the checks of a call say. -/
theorem step_passes (h : Settled s ∧ s.Bounded) (hst : step s e = some t) :
    (e.passes s = false ∧ t = s) ∨ (e.passes s = true ∧ ∃ x, Effect s e.toAct x t) := by
  rcases step_cases h.1 h.2 hst with ⟨c, rfl, hc, rfl⟩ | ⟨hest, heff⟩
  · exact .inl ⟨by simp [Event.passes, hc], rfl⟩
  · refine .inr ⟨?_, heff⟩
    cases e with
    | call c => simp [Event.passes, (check_eq_none_iff h.2 c).mpr (hest c rfl)]
    | _ => rfl

/-! ## Priorities -/

/-- `RED` is above `ORANGE`, and `ORANGE` above `GREEN`. -/
def Priority.Above (a b : Priority) : Prop := queueOf a < queueOf b

/-- No ready thread has a strictly higher priority than the running one. -/
def Lib.TopPriority (s : Lib) : Prop :=
  ∀ r, s.running = some r → ∀ j, ∀ q ∈ s.ready j, ¬(s.heap q).pr.Above (s.heap r).pr

/-- If the event chooses the next thread, the choice respects the priorities. -/
def Respects (s : Lib) (e : Event) : Prop :=
  selects s e = true → ∀ t, step s e = some t → t.TopPriority

/-- When the timer expires, the running thread is not the only one of its priority or above, unless
it is the only one that can run. -/
def PeerReady (s : Lib) (e : Event) : Prop :=
  e = .tick → ∀ r, s.running = some r →
    s.Idle ∨ ∃ i ≤ queueOf (s.heap r).pr, s.ready i ≠ []

/-- A tick leaves the former running thread at the end of its queue when another takes over. -/
theorem Effect.requeued (he : Effect s .tick x t) (hr : s.running = some r) (hne : ¬s.Idle) :
    r ∈ t.ready (queueOf (s.heap r).pr) := by
  cases he with
  | @tickFirst r' p i rest hr' hf =>
    cases hr.symm.trans hr'
    rw [pushReady_ready, if_pos rfl]
    exact List.mem_append_right _ List.mem_cons_self
  | tickIdle hr' hidle => exact absurd hidle hne

/-- After a choice, the priorities are respected when no earlier queue than the chosen thread's has
a thread. -/
theorem Effect.topPriority_iff (he : Effect s a x t) (h : Wf [] s) (ht : Wf [] t)
    (hf : s.First i p rest) (hrun : t.running = some p) :
    t.TopPriority ↔ ∀ j, ∀ q ∈ t.ready j, i ≤ j := by
  have hpi : queueOf (t.heap p).pr = i := by
    rw [he.pr_eq (h.lt_brk _ _ (h.live_of_ready hf.mem))]
    exact (h.ready i p hf.mem).2
  have habove : ∀ j, ∀ q ∈ t.ready j, ¬(t.heap q).pr.Above (t.heap p).pr ↔ i ≤ j :=
    fun j q hq ↦ by rw [Priority.Above, hpi, (ht.ready j q hq).2, not_lt]
  constructor
  · intro htop j q hq
    exact (habove j q hq).mp (htop p hrun j q hq)
  · intro hle r hr j q hq
    cases hrun.symm.trans hr
    exact (habove j q hq).mpr (hle j q hq)

/-- A choice other than the timer's makes no thread ready. -/
theorem Act.enters_of_selects (hsel : a.selects s = true) (ha : a ≠ .tick) : a.enters s = none := by
  match a with
  | .tick => exact absurd rfl ha
  | .land => rfl
  | .body (.suspend _) => rfl
  | .body (.terminate _) => rfl

theorem Lib.First.exists_le_iff (hf : s.First i p rest) (k : Fin numOfQueue) :
    (∃ j ≤ k, s.ready j ≠ []) ↔ i ≤ k := by
  constructor
  · rintro ⟨j, hj, hne⟩
    obtain ⟨q, hq⟩ := List.exists_mem_of_ne_nil _ hne
    exact (hf.le hq).trans hj
  · intro hik
    exact ⟨i, hik, by simp [hf.1]⟩

/-- When the timer lets `p` take over from `r`, the priorities are respected if `r` is not above
`p`. -/
theorem Effect.tick_topPriority_iff (he : Effect s .tick x t) (h : Wf [] s) (ht : Wf [] t)
    (hr : s.running = some r) (hf : s.First i p rest) (hrun : t.running = some p) :
    t.TopPriority ↔ i ≤ queueOf (s.heap r).pr := by
  have henters : Act.enters s .tick = some r := by rw [Act.enters, if_neg hf.not_idle, hr]
  rw [he.topPriority_iff h ht hf hrun]
  constructor
  · intro hle
    exact hle _ r (he.requeued hr hf.not_idle)
  · intro hle j q hq
    rcases he.mem_ready hq with hq' | hq'
    · exact hf.le hq'
    · cases henters.symm.trans hq'
      have hj : queueOf (s.heap r).pr = j := by
        rw [← he.pr_eq (h.lt_brk _ _ (h.live_of_running hr))]
        exact (ht.ready j r hq).2
      exact hj ▸ hle

/-- **The step lemma.**  Only the timer can choose against the priorities, and it does when the
preempted thread is above all that were ready. -/
theorem respects_iff (h : Settled s ∧ s.Bounded) (hst : step s e = some t) :
    Respects s e ↔ PeerReady s e := by
  have hwf := h.1.wf
  have hwt := (step_settled h hst).1.wf
  obtain ⟨r, hr⟩ := Option.isSome_iff_exists.mp h.1.running
  have hres : Respects s e ↔ (selects s e = true → t.TopPriority) := by
    refine forall_congr' fun _ ↦ ⟨fun ht ↦ ht t hst, fun ht u hu ↦ ?_⟩
    rwa [← Option.some.inj (hst.symm.trans hu)]
  have hpeer : PeerReady s e ↔
      (e = .tick → s.Idle ∨ ∃ i ≤ queueOf (s.heap r).pr, s.ready i ≠ []) := by
    refine forall_congr' fun _ ↦ ⟨fun hp ↦ hp r hr, fun hp r' hr' ↦ ?_⟩
    rwa [← Option.some.inj (hr.symm.trans hr')]
  rw [hres, hpeer]
  rcases step_passes h hst with ⟨hp, rfl⟩ | ⟨hp, x, he⟩
  · have hne : e ≠ .tick := by
      rintro rfl
      cases hp
    exact iff_of_true (fun hsel ↦ by simp [selects, hp] at hsel) fun ht ↦ absurd ht hne
  rw [selects, hp, Bool.true_and]
  by_cases hx : x = .jump
  case neg =>
    have hsel := mt (he.selects_iff hwf).mp hx
    have hne : e ≠ .tick := by
      rintro rfl
      exact hsel rfl
    exact iff_of_true (fun hsel' ↦ absurd hsel' hsel) fun ht ↦ absurd ht hne
  subst hx
  have hsel := (he.selects_iff hwf).mpr rfl
  rcases he.chosen with ⟨i, p, rest, hf, hrun⟩ | ⟨hi, hi', -⟩
  · by_cases htick : e = .tick
    · subst htick
      simp only [hsel, forall_true_left, hf.not_idle, false_or, hf.exists_le_iff]
      exact he.tick_topPriority_iff hwf hwt hr hf hrun
    · have hact : e.toAct ≠ .tick := fun hact ↦ htick (by cases e <;> simp_all [Event.toAct])
      refine iff_of_true (fun _ ↦ ?_) fun ht ↦ absurd ht htick
      refine (he.topPriority_iff hwf hwt hf hrun).mpr fun j q hq ↦ ?_
      rcases he.mem_ready hq with hq' | hq'
      · exact hf.le hq'
      · rw [Act.enters_of_selects hsel hact] at hq'
        cases hq'
  · refine iff_of_true (fun _ r hr j q hq ↦ ?_) fun _ ↦ .inl hi
    rw [hi' j] at hq
    cases hq

/-- **The choices of a run respect the priorities exactly when the timer never expires while the
running thread is above all ready ones.** -/
theorem meets_respects_iff {q : ℤ} {s₀ : Lib} {es : List Event}
    (h0 : uthreadInit Lib.fresh q = (success, s₀)) :
    Run.Meets step Respects s₀ es ↔ Run.Meets step PeerReady s₀ es :=
  Run.meets_congr (I := fun s ↦ Settled s ∧ s.Bounded) (fun _ _ _ h hst ↦ step_settled h hst)
    (fun _ _ _ h hst ↦ respects_iff h hst) (uthreadInit_settled h0)

/-- A green thread is ready when the timer expires in the main thread, which is orange. -/
theorem exec_greenReady :
    ∃ s t, Run.exec step (uthreadInit Lib.fresh 1).2 [.call (.spawn .green)] = some s ∧
      step s .tick = some t ∧ selects s .tick = true ∧
      (t.running, t.ready orangeQ, (t.heap 0).pr, (t.heap 1).pr) =
        (some 1, [0], .orange, .green) := by
  have h : ((Run.exec step (uthreadInit Lib.fresh 1).2 [.call (.spawn .green)]).bind fun s ↦
      (step s .tick).map fun t ↦ (selects s .tick, t.running, t.ready orangeQ, (t.heap 0).pr,
        (t.heap 1).pr)) = some (true, some 1, [0], .orange, .green) := by
    decide
  obtain ⟨s, hs, h⟩ := Option.bind_eq_some_iff.mp h
  obtain ⟨t, ht, h⟩ := Option.map_eq_some_iff.mp h
  rw [Prod.mk.injEq] at h
  exact ⟨s, t, hs, ht, h⟩

theorem not_topPriority_of_ready (h : (t.running, t.ready orangeQ, (t.heap 0).pr, (t.heap 1).pr) =
    (some 1, [0], .orange, .green)) : ¬t.TopPriority := fun htop ↦ by
  simp only [Prod.mk.injEq] at h
  obtain ⟨hrun, hready, h0, h1⟩ := h
  refine htop 1 hrun orangeQ 0 (by simp [hready]) ?_
  rw [Priority.Above, h0, h1]
  decide

/-- The green thread takes over from the orange one. -/
theorem exists_not_respects :
    ∃ s₀ s, uthreadInit Lib.fresh 1 = (success, s₀) ∧
      Run.exec step s₀ [.call (.spawn .green)] = some s ∧ ¬Respects s .tick := by
  obtain ⟨s, t, hs, ht, hsel, h⟩ := exec_greenReady
  exact ⟨_, s, rfl, hs, fun hres ↦ not_topPriority_of_ready h (hres hsel t ht)⟩

theorem meets_respects_iff_sample :
    ¬Run.Meets step PeerReady (uthreadInit Lib.fresh 1).2 [.call (.spawn .green), .tick] := by
  intro hmeets
  obtain ⟨s, t, hs, ht, hsel, h⟩ := exec_greenReady
  obtain ⟨u, hu, hus⟩ := Run.exec_cons_eq_some.mp hs
  cases hus
  have hres := (meets_respects_iff (q := 1) rfl).mpr hmeets
  exact not_topPriority_of_ready h (((hres s hu).2 t ht).1 hsel t ht)

end Uthreads
