import OsExercises.Uthreads.Mask
import OsExercises.Uthreads.Quantums

/-!
# When a call fails, and what it moves

`uthread_suspend`, `uthread_resume` and `uthread_terminate` decide by searches in the queues, by the
state of a thread, and by lookups in `_threads` whether they fail.  Since every thread is in exactly
one place, that is a question about the id only: is it live, is it blocked.

* `Moves` is what a call that succeeds does with its thread, and `Spares` what it leaves alone.
* `exec_outcomes` is the result: in every state in which a thread can make a call, the calls fail
  exactly when they should, a call that fails changes nothing, and a call that succeeds moves just
  its thread.
-/

set_option autoImplicit false

namespace Uthreads

variable {s t : Lib} {p q r : ThreadPtr} {tid : ℤ} {c : Call} {a : Act} {x : Exit} {m : Machine}

/-- The thread with this id is blocked. -/
def Lib.BlockedId (s : Lib) (tid : ℤ) : Prop := ∃ p, s.threads[tid]? = some p ∧ p ∈ s.blocked

/-- Nothing but the thread `p`, whose id is `tid`, has moved or changed. -/
structure Spares (tid : ℤ) (p : ThreadPtr) (s t : Lib) : Prop where
  /-- The same thread is running. -/
  running : t.running = s.running
  /-- The other threads in each ready queue are the same, in the same order. -/
  ready : ∀ i, (t.ready i).filter (· ≠ p) = (s.ready i).filter (· ≠ p)
  /-- So are the other blocked threads. -/
  blocked : t.blocked.filter (· ≠ p) = s.blocked.filter (· ≠ p)
  /-- The same other ids belong to the same threads. -/
  threads : ∀ k, k ≠ tid → t.threads[k]? = s.threads[k]?
  /-- The other threads have the same state, count and context. -/
  heap : ∀ q, q ≠ p → t.heap q = s.heap q
  /-- The thread itself keeps its count. -/
  quantom : (t.heap p).quantom = (s.heap p).quantom
  /-- No quantum has started. -/
  quantumCounter : t.quantumCounter = s.quantumCounter
  /-- The signal mask is the same. -/
  mask : t.mask = s.mask

/-- Where a call that succeeds puts its thread `p`. -/
def Moves (p : ThreadPtr) (s t : Lib) : Call → Prop
  | .spawn _ => False
  | .suspend _ => t.threads = s.threads ∧ t.blocked = s.blocked ++ [p] ∧ (∀ i, p ∉ t.ready i) ∧
      (t.heap p).state = .block
  | .resume _ => t.threads = s.threads ∧ p ∉ t.blocked ∧
      t.ready (queueOf (s.heap p).pr) = s.ready (queueOf (s.heap p).pr) ++ [p] ∧
      (t.heap p).state = .ready
  | .terminate tid => tid ∉ t.threads ∧ p ∉ t.blocked ∧ ∀ i, p ∉ t.ready i

/-! ## One call -/

theorem filter_ne_erase (l : List ThreadPtr) (p : ThreadPtr) :
    (l.erase p).filter (· ≠ p) = l.filter (· ≠ p) := by
  induction l with
  | nil => rfl
  | cons q l ih =>
    by_cases hq : q = p
    · simp [hq]
    · rw [List.erase_cons_tail (by simpa using hq), List.filter_cons, List.filter_cons, ih]

theorem filter_ne_concat (l : List ThreadPtr) (p : ThreadPtr) :
    (l ++ [p]).filter (· ≠ p) = l.filter (· ≠ p) := by
  simp

theorem filter_update_ready {l : List ThreadPtr} {i : Fin numOfQueue}
    (hl : l.filter (· ≠ p) = (s.ready i).filter (· ≠ p)) (j : Fin numOfQueue) :
    (Function.update s.ready i l j).filter (· ≠ p) = (s.ready j).filter (· ≠ p) := by
  by_cases hj : j = i
  · rw [hj, Function.update_self, hl]
  · rw [Function.update_of_ne hj]

theorem getElem?_erase_of_ne (m : Std.TreeMap ℤ ThreadPtr) {k : ℤ} (hk : k ≠ tid) :
    (m.erase tid)[k]? = m[k]? := by
  rw [Std.TreeMap.getElem?_erase, if_neg (by simpa using hk.symm)]

theorem setState_state (s : Lib) (r : ThreadPtr) (st : State) :
    ((s.setState r st).heap r).state = st := by simp

/-- **What a call moves that returns `0`.** -/
theorem Effect.moves (h : Wf [] s) (hmask : s.mask = false) (he : Effect s (.body c) x t)
    (hx : x = .ret success) (hc : c.about = some tid) :
    ∃ p, s.threads[tid]? = some p ∧ s.running ≠ some p ∧ Spares tid p s t ∧ Moves p s t c := by
  generalize ha : Act.body c = a at he
  cases he with
  | @terminateReady p k hp hne hmem =>
    cases ha
    cases hc
    obtain ⟨h1, h2, h3⟩ := (h.takeReady hmem).not_placed List.mem_cons_self
    exact ⟨p, hp, h1, ⟨rfl, filter_update_ready (filter_ne_erase _ p), rfl,
      fun _ hk ↦ getElem?_erase_of_ne _ hk,
      fun _ _ ↦ rfl, rfl, rfl, hmask.symm⟩, fun hk ↦ ((mem_erase_iff _ _).mp hk).1 rfl, h3, h2⟩
  | @terminateBlocked p k hp hne hmem =>
    cases ha
    cases hc
    obtain ⟨h1, h2, h3⟩ := (h.takeBlocked hmem).not_placed List.mem_cons_self
    exact ⟨p, hp, h1, ⟨rfl, fun _ ↦ rfl, filter_ne_erase _ p,
      fun _ hk ↦ getElem?_erase_of_ne _ hk,
      fun _ _ ↦ rfl, rfl, rfl, hmask.symm⟩, fun hk ↦ ((mem_erase_iff _ _).mp hk).1 rfl, h3, h2⟩
  | @suspendReady p k hp hne hmem =>
    cases ha
    cases hc
    obtain ⟨h1, h2, h3⟩ := (h.takeReady hmem).not_placed List.mem_cons_self
    exact ⟨p, hp, h1, ⟨rfl, filter_update_ready (filter_ne_erase _ p), filter_ne_concat _ p,
      fun _ _ ↦ rfl, fun q hq ↦ Lib.setState_heap_of_ne _ _ hq,
      setState_quantom _ _ _ _, rfl, hmask.symm⟩, rfl, rfl, h2,
      setState_state _ _ _⟩
  | @resume p k hp hmem =>
    cases ha
    cases hc
    obtain ⟨h1, h2, h3⟩ := (h.takeBlocked hmem).not_placed List.mem_cons_self
    exact ⟨p, hp, h1, ⟨rfl, filter_update_ready (filter_ne_concat _ p), filter_ne_erase _ p,
      fun _ _ ↦ rfl, fun q hq ↦ Lib.setState_heap_of_ne _ _ hq,
      setState_quantom _ _ _ _, rfl, hmask.symm⟩, rfl, h3,
      Function.update_self _ _ _, setState_state _ _ _⟩
  | spawn =>
    cases ha
    cases hc
  | suspendBlocked => cases hx
  | _ => cases ha <;> cases hx

/-- **A call that returns `-1` changes nothing.** -/
theorem call_fail (h : Settled s) (hb : s.Bounded) (hmask : s.mask = false)
    (hc : call s c = .ok (.ret fail, t)) : t = s := by
  rcases perform_spec h hb (.call c) with ⟨-, u, hu⟩ | ⟨c', -, -, hu⟩ | ⟨-, x, u, hu, he⟩
  · cases hu.symm.trans hc
  · cases hu.symm.trans hc
    rfl
  · cases hu.symm.trans hc
    generalize hx : Exit.ret fail = x at he
    cases he with
    | suspendBlocked => rw [Lib.sigBlock, Lib.sigUnblock, ← hmask]
    | spawn hr pr =>
      have hnn := h.wf.isLeast_getNextId.1.1
      rw [← Exit.ret.inj hx] at hnn
      exact absurd hnn (by decide)
    | _ => cases hx

/-- A call whose checks fail returns `-1`, unless it ends the process. -/
theorem call_of_not_established (hb : s.Bounded) (hne : c ≠ .terminate mainThread)
    (hc : ¬s.Established c) : call s c = .ok (.ret fail, s) := by
  match hx : check s c with
  | none => exact absurd ((check_eq_none_iff hb c).mp hx) hc
  | some x =>
    rcases check_eq_some hx with rfl | ⟨-, h⟩
    · rw [call, hx]
    · exact absurd h hne

/-- A call whose checks are passed has the effect of its body. -/
theorem call_of_established (h : Settled s) (hb : s.Bounded) (hc : s.Established c) :
    ∃ x t, call s c = .ok (x, t) ∧ Effect s (.body c) x t := by
  obtain ⟨r, hr⟩ := Option.isSome_iff_exists.mp h.running
  obtain ⟨x, t, hact, he⟩ := act_spec h.wf hr (.body c) (by rintro _ ⟨⟩; exact hc)
  refine ⟨x, t, ?_, he⟩
  rw [call, (check_eq_none_iff hb c).mpr hc]
  exact hact

theorem Lib.not_blockedId (hp : s.threads[tid]? = some p) (hmem : p ∉ s.blocked) :
    ¬s.BlockedId tid := by
  rintro ⟨p', hp', hmem'⟩
  cases hp.symm.trans hp'
  exact hmem hmem'

theorem suspend_fails_iff (h : Settled s) (hb : s.Bounded) :
    (∃ t, call s (.suspend tid) = .ok (.ret fail, t)) ↔
      tid = mainThread ∨ tid ∉ s.threads ∨ s.BlockedId tid := by
  by_cases hest : s.Established (.suspend tid)
  · obtain ⟨hne, hmem⟩ := hest
    obtain ⟨x, t, hcall, he⟩ := call_of_established h hb (c := .suspend tid) ⟨hne, hmem⟩
    have hfail : (∃ t, call s (.suspend tid) = .ok (.ret fail, t)) ↔ x = .ret fail := by
      rw [hcall]
      simp
    simp only [hfail, hne, hmem, not_true_eq_false, false_or]
    cases he with
    | @suspendRunning r p i rest k hr htid hne' hf =>
      have hlive : s.threads[tid]? = some r := by
        rw [← htid]
        exact h.wf.live_of_running hr
      have hno := Lib.not_blockedId hlive (h.wf.running_alone hr).2
      simp [hno]
    | suspendReady hp _ hready =>
      have hno := Lib.not_blockedId hp ((h.wf.takeReady hready).not_placed List.mem_cons_self).2.2
      simp [hno, success, fail]
    | suspendBlocked hp hblocked =>
      simp only [true_iff]
      exact ⟨_, hp, hblocked⟩
  · refine iff_of_true ⟨s, call_of_not_established hb (by simp) hest⟩ ?_
    by_contra hno
    simp only [not_or, not_not] at hno
    exact hest ⟨hno.1, hno.2.1⟩

theorem resume_fails_iff (h : Settled s) (hb : s.Bounded) :
    (∃ t, call s (.resume tid) = .ok (.ret fail, t)) ↔ tid ∉ s.threads ∨ ¬s.BlockedId tid := by
  by_cases hest : s.Established (.resume tid)
  · obtain ⟨x, t, hcall, he⟩ := call_of_established h hb hest
    have hmem : tid ∈ s.threads := by
      obtain ⟨p, hp, -⟩ := hest
      exact Lib.mem_threads_iff.mpr ⟨p, hp⟩
    refine iff_of_false ?_ (by simp only [not_or, not_not]; exact ⟨hmem, hest⟩)
    rintro ⟨u, hu⟩
    cases hcall.symm.trans hu
    cases he
  · exact iff_of_true ⟨s, call_of_not_established hb (by simp) hest⟩ (.inr hest)

theorem terminate_fails_iff (h : Settled s) (hb : s.Bounded) (hne : tid ≠ mainThread) :
    (∃ t, call s (.terminate tid) = .ok (.ret fail, t)) ↔ tid ∉ s.threads := by
  by_cases hmem : tid ∈ s.threads
  · obtain ⟨x, t, hcall, he⟩ := call_of_established h hb (c := .terminate tid) ⟨hne, hmem⟩
    refine iff_of_false ?_ (by simpa using hmem)
    rintro ⟨u, hu⟩
    cases hcall.symm.trans hu
    cases he
  · have hest : ¬s.Established (.terminate tid) := fun hc ↦ hmem hc.2
    exact iff_of_true ⟨s, call_of_not_established hb (by simpa using hne) hest⟩ hmem

/-- A call about another thread returns, with `0` or `-1`. -/
theorem call_returns (h : Settled s) (hb : s.Bounded) (hc : c.about = some tid)
    (hne : c ≠ .terminate mainThread) (hr : ∀ p, s.threads[tid]? = some p → s.running ≠ some p) :
    ∃ t, call s c = .ok (.ret success, t) ∨ call s c = .ok (.ret fail, t) := by
  by_cases hest : s.Established c
  · obtain ⟨x, t, hcall, he⟩ := call_of_established h hb hest
    generalize ha : Act.body c = a at he
    cases he with
    | terminateRunning hr' htid =>
      cases ha
      cases hc
      exact absurd hr' (hr _ (htid ▸ h.wf.live_of_running hr'))
    | suspendRunning hr' htid =>
      cases ha
      cases hc
      exact absurd hr' (hr _ (htid ▸ h.wf.live_of_running hr'))
    | spawn =>
      cases ha
      cases hc
    | suspendBlocked => exact ⟨_, .inr hcall⟩
    | tickFirst => cases ha
    | tickIdle => cases ha
    | landUser => cases ha
    | landSuspend => cases ha
    | _ => exact ⟨_, .inl hcall⟩
  · exact ⟨s, .inr (call_of_not_established hb hne hest)⟩

/-! ## Every call of every run -/

/-- **Thread calls fail exactly when they should and then change nothing.**  A call of
`uthread_suspend` returns `-1` for the main thread, for an id that is not live, and for a thread
that is blocked; a call of `uthread_resume` for an id that is not live or not blocked; and a call of
`uthread_terminate`, which ends the process for the main thread, for an id that is not live.  A call
that returns `-1` leaves the state as it was.  A call about a thread that is not running returns,
and if it returns `0` it has moved that thread and spared the others. -/
theorem exec_outcomes {q : ℤ} {s₀ : Lib} {es : List Event}
    (h0 : uthreadInit Lib.fresh q = (success, s₀))
    (h : Run.exec Machine.step (.start s₀) es = some m) (hu : m.ctl = .user) (tid : ℤ) :
    ((∃ t, call m.lib (.suspend tid) = .ok (.ret fail, t)) ↔
      tid = mainThread ∨ tid ∉ m.lib.threads ∨ m.lib.BlockedId tid) ∧
    ((∃ t, call m.lib (.resume tid) = .ok (.ret fail, t)) ↔
      tid ∉ m.lib.threads ∨ ¬m.lib.BlockedId tid) ∧
    (tid ≠ mainThread →
      ((∃ t, call m.lib (.terminate tid) = .ok (.ret fail, t)) ↔ tid ∉ m.lib.threads)) ∧
    (∀ c t, call m.lib c = .ok (.ret fail, t) → t = m.lib) ∧
    (∀ c, c.about = some tid → c ≠ .terminate mainThread →
      (∀ p, m.lib.threads[tid]? = some p → m.lib.running ≠ some p) →
      ∃ t, call m.lib c = .ok (.ret success, t) ∨ call m.lib c = .ok (.ret fail, t)) ∧
    (∀ c t, c.about = some tid → call m.lib c = .ok (.ret success, t) →
      ∃ p, m.lib.threads[tid]? = some p ∧ m.lib.running ≠ some p ∧ Spares tid p m.lib t ∧
        Moves p m.lib t c) ∧
    ∀ p, m.lib.Live p → (p ∈ m.lib.blocked ↔ (m.lib.heap p).state = .block) := by
  obtain ⟨⟨hs, hb⟩, -, hun⟩ := exec_ids h0 h
  have hmask := hun.user hu
  refine ⟨suspend_fails_iff hs hb, resume_fails_iff hs hb, terminate_fails_iff hs hb,
    fun c t hc ↦ call_fail hs hb hmask hc, fun c hc hne hr ↦ call_returns hs hb hc hne hr,
    fun c t hc hcall ↦ ?_, fun p hp ↦ ?_⟩
  · by_cases hest : m.lib.Established c
    · obtain ⟨x, t', hcall', he⟩ := call_of_established hs hb hest
      cases hcall'.symm.trans hcall
      exact he.moves hs.wf hmask rfl hc
    · have hne : c ≠ .terminate mainThread := by
        rintro rfl
        simp [call, check, terminateCheck] at hcall
      rw [call_of_not_established hb hne hest] at hcall
      cases hcall
  · rcases hs.wf.placed hp with ⟨-, h1, -, h2⟩ | ⟨-, h1, -, -, h2⟩ | ⟨-, h1, -, h2⟩
    · simp [h1, h2]
    · simp [h1, h2]
    · have hmem : p ∈ m.lib.blocked := List.count_pos_iff.mp (h2 ▸ Nat.one_pos)
      simp [h1, hmem]

/-- A run after which thread 1 is blocked. -/
def blockEvents : List Event :=
  [.call (.spawn .red), .call (.spawn .green), .call (.suspend 1)]

theorem exec_outcomes_sample :
    ∃ m, Run.exec Machine.step (.start (uthreadInit Lib.fresh 1).2) blockEvents = some m ∧
      (∃ t, call m.lib (.suspend 7) = .ok (.ret fail, t)) ∧
      ∀ c t, call m.lib c = .ok (.ret fail, t) → t = m.lib := by
  obtain ⟨m, hm, h⟩ : ∃ m, Run.exec Machine.step (.start (uthreadInit Lib.fresh 1).2)
      blockEvents = some m ∧ (m.ctl, m.lib.threads[(7 : ℤ)]?) = (.user, none) := by
    rw [← Option.map_eq_some_iff]
    decide
  simp only [Prod.mk.injEq] at h
  have hmem : (7 : ℤ) ∉ m.lib.threads := by
    rw [Std.TreeMap.mem_iff_isSome_getElem?, h.2]
    simp
  obtain ⟨h1, -, -, h4, -⟩ := exec_outcomes (q := 1) rfl hm h.1 7
  exact ⟨m, hm, h1.mpr (.inr (.inl hmem)), h4⟩

end Uthreads
