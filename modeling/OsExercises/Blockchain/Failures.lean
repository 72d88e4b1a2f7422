import OsExercises.Blockchain.Pruned

/-!
# Calls that fail

A call that returns an error or is left by an exception should change nothing.  Two calls do:
`init_blockchain` takes `s_mutex` before it starts the daemon's thread and does not give it back
when the thread cannot be created; and `prune_chain` has set marks, and may have dropped numbers,
when the lookup of a number throws.

* `init_failsCleanly_iff`, `prune_failsCleanly_iff` and `call_failsCleanly_iff` say for each
  call when it is clean, and `failsCleanly_iff` puts them together.
* `Lifecycle.Sound.canOpen` is the run that opens the chain again, and `Lifecycle.Jammed` the
  invariant that there is none.
-/

set_option autoImplicit false

namespace Blockchain

variable {s t : Chain} {p q g : BlockPtr} {k v : ℤ} {H : HashLib} {pick seed : ℕ} {pastEnd : ℤ}
variable {l : List BlockPtr} {m m' : Lifecycle} {e : LifeEvent} {x : Exit}
variable {mark : ℤ → Option Bool} {vs : List ℤ}

/-! ## Failing and changing nothing -/

/-- The call returns an error, or an exception leaves it. -/
def Exit.Failed (x : Exit) : Prop :=
  x = .ret fail ∨ x = .ret unsuccessful ∨ x = .outOfRange ∨ x = .badLength

instance (x : Exit) : Decidable x.Failed := inferInstanceAs (Decidable (_ ∨ _))

theorem failed_outOfRange : Exit.outOfRange.Failed := by decide

theorem not_failed_success : ¬(Exit.ret success).Failed := by decide

theorem not_failed_waits (k : ℤ) : ¬(Exit.waits k).Failed := by simp [Exit.Failed]

/-- Nothing is changed but the order of the numbers. -/
structure Unchanged (s t : Chain) : Prop where
  /-- The attached blocks. -/
  map : t.blockMap = s.blockMap
  /-- Their fields. -/
  attached : ∀ (k : ℤ) (p : BlockPtr), s.blockMap[k]? = some p → t.heap p = s.heap p
  /-- The pending blocks. -/
  queue : t.blockQueue = s.blockQueue
  /-- Their fields. -/
  pending : ∀ p ∈ s.blockQueue, t.heap p = s.heap p
  /-- The numbers. -/
  numbers : ∀ v, v ∈ t.vecIndex ↔ v ∈ s.vecIndex
  /-- Whether the chain is open. -/
  initiated : t.isInitiated = s.isInitiated
  /-- Whether it is being closed. -/
  blocked : t.currentlyBlocked = s.currentlyBlocked
  /-- The number that the daemon has noted. -/
  noted : t.isInDaemon = s.isInDaemon
  /-- The counter. -/
  counter : t.sizeCounter = s.sizeCounter
  /-- Whether `s_mutex` is held. -/
  mutex : t.sMutex = s.sMutex

theorem Unchanged.refl (s : Chain) : Unchanged s s :=
  ⟨rfl, fun _ _ _ ↦ rfl, rfl, fun _ _ ↦ rfl, fun _ ↦ Iff.rfl, rfl, rfl, rfl, rfl, rfl⟩

/-- The order of the numbers does not count. -/
theorem Unchanged.numbers_perm {v : List ℤ} (hv : v.Perm s.vecIndex) :
    Unchanged s { s with vecIndex := v } :=
  ⟨rfl, fun _ _ _ ↦ rfl, rfl, fun _ _ ↦ rfl, fun _ ↦ hv.mem_iff, rfl, rfl, rfl, rfl, rfl⟩

/-- Some later `init_blockchain` succeeds. -/
def Lifecycle.CanOpen (H : HashLib) (m : Lifecycle) : Prop :=
  ∃ es m', Run.exec (Lifecycle.step H) m es = some m' ∧
    (initBlockchain m'.chain true).1 = .ret success

/-- How a library call ends. -/
def Lifecycle.exit (H : HashLib) (m : Lifecycle) : LifeEvent → Option Exit
  | .init created => some (initBlockchain m.chain created).1
  | .call c => if c.isCall then some (perform H m.chain c).1 else none
  | _ => none

/-- If the event is a call that fails, nothing is changed, and if it is `init_blockchain`, a later
one can still succeed. -/
def Lifecycle.FailsCleanly (H : HashLib) (m : Lifecycle) (e : LifeEvent) : Prop :=
  ∀ x m', m.exit H e = some x → x.Failed → m.step H e = some m' →
    Unchanged m.chain m'.chain ∧ ∀ created, e = .init created → m'.CanOpen H

/-! ## Opening the chain again -/

/-- The closing thread can empty the queue. -/
theorem Lifecycle.Sound.exists_drained {n : ℕ} (hs : m.Sound) (hn : m.chain.blockQueue.length = n)
    (hc : m.closers ≠ 0) (hinit : m.chain.isInitiated = true) :
    ∃ es m', Run.exec (Lifecycle.step H) m es = some m' ∧ m'.chain.blockQueue = [] ∧
      m'.closers ≠ 0 := by
  induction n generalizing m with
  | zero => exact ⟨[], m, rfl, List.length_eq_zero_iff.mp hn, hc⟩
  | succ n ih =>
    obtain ⟨p, rest, hq⟩ := List.exists_cons_of_length_eq_add_one hn
    have hstep : m.step H (.drain 0 0) = some (m.took { m.chain.processed H p rest 0 0 with
        sizeCounter := m.chain.sizeCounter }) := by
      rw [Lifecycle.step, if_neg (by simp [hc, hq]), (hs.linked hinit).drainBlock_eq hq]
    have hlen : rest.length = n := by
      rw [hq, List.length_cons] at hn
      exact Nat.succ.inj hn
    obtain ⟨es, m', hes, hm'⟩ := ih (hs.step hstep) hlen hc hinit
    exact ⟨.drain 0 0 :: es, m', Run.exec_cons_eq_some.mpr ⟨_, hstep, hes⟩, hm'⟩

/-- **An open chain can be closed and opened again.** -/
theorem Lifecycle.Sound.canOpen (hs : m.Sound) (hinit : m.chain.isInitiated = true) :
    m.CanOpen H := by
  obtain ⟨m₁, hm₁⟩ : ∃ m₁, m.step H .close = some m₁ := ⟨_, rfl⟩
  have hs₁ := hs.step hm₁
  have heq : m₁.closers = m.closers + 1 ∧ m₁.chain.isInitiated = true := by
    rw [Lifecycle.step, closeChain, if_pos hinit, if_pos hinit] at hm₁
    rw [← Option.some.inj hm₁]
    exact ⟨rfl, hinit⟩
  obtain ⟨es, m₂, hes, hnil, hc⟩ := hs₁.exists_drained (H := H) rfl (by omega) heq.2
  have hfin : m₂.step H .finish =
      some { m₂ with chain := resetChain m₂.chain, closers := m₂.closers - 1 } := by
    rw [Lifecycle.step, if_neg (by simp [hc, hnil])]
  refine ⟨.close :: es ++ [.finish], _,
    Run.exec_concat (Run.exec_cons_eq_some.mpr ⟨m₁, hm₁, hes⟩) hfin, rfl⟩

/-- The chain is not open, `s_mutex` is held, and no closing thread is there to give it back. -/
structure Lifecycle.Jammed (m : Lifecycle) : Prop where
  /-- The chain is not open. -/
  shut : m.chain.isInitiated = false
  /-- `s_mutex` is held. -/
  held : m.chain.sMutex = true
  /-- There is no closing thread. -/
  closers : m.closers = 0

/-- Opening waits for `s_mutex`. -/
theorem Shut.initBlockchain_locked (h : Shut s) (hno : s.isInitiated = false)
    (hheld : s.sMutex = true) (created : Bool) : initBlockchain s created = (.locked, s) := by
  simp [initBlockchain, hno, hheld, h.unblocked]

/-- **A jammed program stays jammed.** -/
theorem Lifecycle.Jammed.step (hj : m.Jammed) (hs : m.Sound) (hst : m.step H e = some m') :
    m'.Jammed := by
  obtain ⟨hno, hheld, hc⟩ := hj
  have hshut := hs.shut hno
  match e with
  | .init created =>
    rw [Lifecycle.step, hshut.initBlockchain_locked hno hheld] at hst
    rw [← Option.some.inj hst]
    exact ⟨hno, hheld, hc⟩
  | .call c =>
    obtain ⟨hcall, heq⟩ : c.isCall = true ∧
        m' = m.called c (perform H m.chain c).1 (perform H m.chain c).2 := by
      cases hs.moves hst with
      | called c hcall => exact ⟨hcall, rfl⟩
    have hsame : (perform H m.chain c).2 = m.chain := by
      rcases perform_of_closed (H := H) (s := m.chain) (by simp [hno]) hcall with hsame | ⟨k, rfl⟩
      · exact hsame
      · rw [perform, toLongest, hno]
        rfl
    rw [heq, hsame]
    exact ⟨by rwa [called_chain], by rwa [called_chain], by rwa [called_closers]⟩
  | .daemon pick seed =>
    rw [Lifecycle.step, if_neg (by simp [hshut.unblocked]), daemonFunction_nil hshut.queue] at hst
    rw [← Option.some.inj hst]
    exact ⟨hno, hheld, hc⟩
  | .close =>
    rw [Lifecycle.step, closeChain, if_neg (by simp [hno]), if_neg (by simp [hno])] at hst
    rw [← Option.some.inj hst]
    exact ⟨hno, hheld, hc⟩
  | .drain pick seed =>
    rw [Lifecycle.step, if_pos (.inl hc)] at hst
    cases hst
  | .finish =>
    rw [Lifecycle.step, if_pos (.inl hc)] at hst
    cases hst

/-- Once jammed, the chain is never opened again. -/
theorem Lifecycle.Jammed.not_canOpen (hj : m.Jammed) (hs : m.Sound) : ¬m.CanOpen H := by
  rintro ⟨es, m', hes, hok⟩
  obtain ⟨hj', hs'⟩ := Run.exec_induction (I := fun m : Lifecycle ↦ m.Jammed ∧ m.Sound)
    (fun _ _ _ hm hst ↦ ⟨hm.1.step hm.2 hst, hm.2.step hst⟩) ⟨hj, hs⟩ hes
  rw [(hs'.shut hj'.shut).initBlockchain_locked hj'.shut hj'.held] at hok
  cases hok

/-! ## `init_blockchain` -/

/-- **When `init_blockchain` fails cleanly**: not when the daemon's thread cannot be created. -/
theorem Lifecycle.Sound.init_failsCleanly_iff (hs : m.Sound) (created : Bool) :
    m.FailsCleanly H (.init created) ↔ m.chain.isInitiated = true ∨
      m.chain.currentlyBlocked = true ∨ m.chain.sMutex = true ∨ created = true := by
  have hblocked : m.chain.currentlyBlocked = true → m.chain.isInitiated = true := fun hb ↦ by
    by_contra hno
    rw [(hs.shut (by simpa using hno)).unblocked] at hb
    cases hb
  by_cases hopen : m.chain.isInitiated = true
  · refine iff_of_true (fun x m' _ _ hst ↦ ?_) (.inl hopen)
    have hrefuse : initBlockchain m.chain created = (.ret fail, m.chain) := by
      simp [initBlockchain, hopen]
    rw [Lifecycle.step, hrefuse] at hst
    rw [← Option.some.inj hst]
    exact ⟨.refl _, fun _ _ ↦ Lifecycle.Sound.canOpen ⟨hs.linked, hs.shut⟩ hopen⟩
  have hshut := hs.shut (by simpa using hopen)
  by_cases hheld : m.chain.sMutex = true
  · refine iff_of_true (fun x m' hx hfail _ ↦ ?_) (.inr (.inr (.inl hheld)))
    rw [Lifecycle.exit, hshut.initBlockchain_locked (by simpa using hopen) hheld,
      Option.some.injEq] at hx
    rw [← hx] at hfail
    exact absurd hfail (show ¬Exit.locked.Failed by decide)
  cases created with
  | true =>
    refine iff_of_true (fun x m' hx hfail _ ↦ ?_) (.inr (.inr (.inr rfl)))
    have hok : (initBlockchain m.chain true).1 = .ret success := by
      simp [initBlockchain, hopen, hheld, hshut.unblocked]
    rw [Lifecycle.exit, hok, Option.some.injEq] at hx
    rw [← hx] at hfail
    exact absurd hfail not_failed_success
  | false =>
    refine iff_of_false (fun hclean ↦ ?_) (by simp [hopen, hheld, hshut.unblocked])
    have hnone : initBlockchain m.chain false = (.ret fail, { m.chain with sMutex := true }) := by
      simp [initBlockchain, hopen, hheld, hshut.unblocked]
    obtain ⟨m', hst⟩ : ∃ m', m.step H (.init false) = some m' := ⟨_, rfl⟩
    have hkept := (hclean (.ret fail) m' (by rw [Lifecycle.exit, hnone]) (by decide) hst).1.mutex
    rw [Lifecycle.step, hnone] at hst
    rw [← Option.some.inj hst] at hkept
    exact hheld hkept.symm

/-! ## `prune_chain` -/

/-- The sweep is left by an exception before it has dropped a number: behind numbers of marked
blocks it meets one that is not attached. -/
def SweepStuck (mark : ℤ → Option Bool) (pastEnd : ℤ) (vs : List ℤ) : Prop :=
  ∃ before v rest, vs = before ++ v :: rest ∧ pastEnd ∉ before ++ [v] ∧
    (∀ u ∈ before, mark u = some true) ∧ mark v = none

theorem sweepStuck_cons : SweepStuck mark pastEnd (v :: vs) ↔
    v ≠ pastEnd ∧ (mark v = none ∨ mark v = some true ∧ SweepStuck mark pastEnd vs) := by
  constructor
  · rintro ⟨before, u, rest, heq, hend, hbefore, hu⟩
    match before with
    | [] =>
      rw [List.nil_append, List.cons.injEq] at heq
      obtain ⟨rfl, rfl⟩ := heq
      exact ⟨fun hv ↦ hend (by simp [hv]), .inl hu⟩
    | a :: before =>
      rw [List.cons_append, List.cons.injEq] at heq
      obtain ⟨rfl, rfl⟩ := heq
      refine ⟨fun hv ↦ hend (by simp [hv]), .inr ⟨hbefore v List.mem_cons_self, ?_⟩⟩
      exact ⟨before, u, rest, rfl, fun hmem ↦ hend (List.mem_cons_of_mem _ hmem),
        fun x hx ↦ hbefore x (List.mem_cons_of_mem _ hx), hu⟩
  · rintro ⟨hend, hnone | ⟨hmark, before, u, rest, rfl, hend', hbefore, hu⟩⟩
    · exact ⟨[], v, vs, rfl, by simpa using Ne.symm hend, by simp, hnone⟩
    · refine ⟨v :: before, u, rest, rfl, ?_, by simpa [hmark] using hbefore, hu⟩
      rw [List.cons_append, List.mem_cons, not_or]
      exact ⟨Ne.symm hend, hend'⟩

/-- **When the sweep throws and leaves the list as it is.** -/
theorem sweepIndex_eq_iff : sweepIndex mark pastEnd vs = (false, vs) ↔
    SweepStuck mark pastEnd vs := by
  induction vs with
  | nil => simp [sweepIndex, SweepStuck]
  | cons v vs ih =>
    rw [sweepStuck_cons, sweepIndex]
    by_cases hend : v = pastEnd
    · simp [hend]
    rw [if_neg hend]
    rcases hv : mark v with _ | _ | _
    · simp [hend]
    · refine iff_of_false (fun heq ↦ ?_) (by simp)
      have hle := (sweepIndex_sublist mark ((v :: vs).getLast (by simp)) vs).1.length_le
      dsimp only at heq
      rw [heq, List.length_cons] at hle
      omega
    · simp only [← ih, Prod.ext_iff, List.cons.injEq, true_and]
      simp [hend]

/-- Marking blocks that are marked changes nothing. -/
theorem mark_of_marked (h : ∀ q ∈ l, (s.heap q).isInLongest = true) : s.mark true l = s := by
  have hheap : (s.mark true l).heap = s.heap := by
    funext q
    rw [mark_heap]
    by_cases hq : q ∈ l
    · rw [if_pos hq, ← h q hq]
    · rw [if_neg hq]
  exact congrArg (fun heap ↦ { s with heap := heap }) hheap

/-- The sweep runs to its end, or an earlier call has left the marks of the whole way and the sweep
drops nothing before the exception. -/
def PruneClean (s : Chain) (pick : ℕ) (pastEnd : ℤ) : Prop :=
  PruneSafe s pick pastEnd ∨
    ∀ p l, s.blockMap[findFather s pick]? = some p → RootPath s.next p l →
      (∀ q ∈ l, (s.heap q).isInLongest = true) ∧
        SweepStuck (isInLongestAt s) pastEnd s.vecIndex

/-- **When `prune_chain` fails cleanly.** -/
theorem Linked.prune_failsCleanly_iff (h : Linked s) (hl : Listed s) :
    ((Blockchain.pruneChain s pick pastEnd).1.Failed →
      Unchanged s (Blockchain.pruneChain s pick pastEnd).2) ↔ PruneClean s pick pastEnd := by
  obtain ⟨p, l, hp, hpath, hall, heq⟩ := h.pruneChain_cases pick pastEnd
  have hsub := (sweepIndex_sublist (isInLongestAt (s.mark true l)) pastEnd s.vecIndex).1
  rw [PruneClean, PruneSafe, forall_path_iff hp hpath, forall_path_iff hp hpath,
    ← sweepIndex_done_iff hl.nodup]
  cases hdone : (sweepIndex (isInLongestAt (s.mark true l)) pastEnd s.vecIndex).1 with
  | true =>
    rw [hdone, if_pos rfl] at heq
    refine iff_of_true (fun hfail ↦ ?_) (.inl rfl)
    rw [heq] at hfail
    exact absurd hfail not_failed_success
  | false =>
    rw [hdone, if_neg (by simp)] at heq
    simp only [Bool.false_eq_true, false_or]
    constructor
    · intro hclean
      have hsame := hclean (by rw [heq]; exact failed_outOfRange)
      rw [heq] at hsame
      have hmarked : ∀ q ∈ l, (s.heap q).isInLongest = true := fun q hq ↦ by
        have hfields : (s.mark true l).heap q = s.heap q := hsame.attached _ q (hall q hq)
        rw [← hfields, mark_heap, if_pos hq]
      have hlist := hsub.eq_of_length_le
        (List.subperm_of_subset hl.nodup fun v hv ↦ (hsame.numbers v).mpr hv).length_le
      rw [mark_of_marked hmarked] at hdone hlist
      exact ⟨hmarked, sweepIndex_eq_iff.mp (Prod.ext hdone hlist)⟩
    · rintro ⟨hmarked, hstuck⟩ -
      rw [mark_of_marked hmarked, sweepIndex_eq_iff.mpr hstuck] at heq
      rw [heq]
      exact .refl s

/-! ## The other calls -/

/-- When `attach_now` neither succeeds nor waits, it has not touched the queue. -/
theorem attachNow_of_failed (h : (attachNow s k).1.Failed) : (attachNow s k).2 = s := by
  revert h
  rw [attachNow]
  split
  · exact fun _ ↦ rfl
  split
  · exact fun _ ↦ rfl
  split
  · exact fun _ ↦ rfl
  split
  · exact fun _ ↦ rfl
  rcases popBlock_cases s k with hpop | ⟨p, q, -, hpop⟩
  · rw [hpop]
    exact fun _ ↦ rfl
  · rw [hpop]
    exact fun hfail ↦ absurd hfail (not_failed_waits k)

/-- **The other calls fail cleanly.** -/
theorem Lifecycle.Sound.call_failsCleanly (hs : m.Sound) {c : Event} (hc : c.isCall = true)
    (hne : ∀ pick pastEnd, c ≠ .pruneChain pick pastEnd)
    (hfail : (Blockchain.perform H m.chain c).1.Failed) :
    Unchanged m.chain (Blockchain.perform H m.chain c).2 := by
  match c with
  | .addBlock data length pick =>
    by_cases hclosed : (!m.chain.isInitiated || m.chain.currentlyBlocked) = true
    · rw [Blockchain.perform, addBlock, if_pos hclosed]
      exact .refl _
    · have hlinked := hs.linked_of_open hclosed
      obtain ⟨p, -, heq⟩ := hlinked.addBlock_cases data length pick
      rw [Blockchain.perform, heq] at hfail ⊢
      split
      · exact .numbers_perm (List.perm_insertionSort _ _)
      · rename_i hok
        rw [if_neg hok] at hfail
        -- the number that is given out is not negative, so it is no error
        have hnn := m.chain.minIdx_nonneg
        simp only [Exit.Failed, Exit.ret.injEq, fail, unsuccessful, reduceCtorEq, or_false] at hfail
        omega
  | .toLongest k =>
    rw [Blockchain.perform] at hfail ⊢
    rcases toLongest_flags m.chain k with heq | ⟨p, -, -, heq⟩
    · rw [heq]
      exact .refl _
    · rw [heq] at hfail
      exact absurd hfail not_failed_success
  | .attachNow k =>
    rw [Blockchain.perform] at hfail ⊢
    rw [attachNow_of_failed hfail]
    exact .refl _
  | .pruneChain pick pastEnd => exact absurd rfl (hne pick pastEnd)

/-! ## All of them -/

/-- When a failing call changes nothing. -/
def Lifecycle.Clean (m : Lifecycle) : LifeEvent → Prop
  | .init created => m.chain.isInitiated = true ∨ m.chain.currentlyBlocked = true ∨
      m.chain.sMutex = true ∨ created = true
  | .call (.pruneChain pick pastEnd) => m.chain.isInitiated = false ∨
      m.chain.currentlyBlocked = true ∨ PruneClean m.chain pick pastEnd
  | _ => True

/-- What a call that is not `init_blockchain` must leave alone. -/
theorem Lifecycle.Sound.call_failsCleanly_iff (hs : m.Sound) {c : Event} (hc : c.isCall = true) :
    m.FailsCleanly H (.call c) ↔ ((Blockchain.perform H m.chain c).1.Failed →
      Unchanged m.chain (Blockchain.perform H m.chain c).2) := by
  have hexit : m.exit H (.call c) = some (Blockchain.perform H m.chain c).1 := by
    rw [Lifecycle.exit, if_pos hc]
  constructor
  · intro hclean hfail
    have hst : m.step H (.call c) = some (m.called c (Blockchain.perform H m.chain c).1
        (Blockchain.perform H m.chain c).2) := by
      rw [Lifecycle.step, if_pos hc]
      split
      · rename_i heq
        rw [heq] at hfail
        exact absurd hfail (show ¬Exit.diverges.Failed by decide)
      · rename_i heq
        rw [heq]
    have hsame := (hclean _ _ hexit hfail hst).1
    rwa [called_chain] at hsame
  · intro hclean x m' hx hfail hst
    rw [hexit, Option.some.injEq] at hx
    rw [← hx] at hfail
    refine ⟨?_, fun created heq ↦ by cases heq⟩
    cases hs.moves hst with
    | called _ _ =>
      rw [called_chain]
      exact hclean hfail

/-- An event that is no call does not fail. -/
theorem Lifecycle.failsCleanly_of_exit (h : m.exit H e = none) : m.FailsCleanly H e := by
  intro x m' hx
  rw [h] at hx
  cases hx

/-- **When a failing call changes nothing**, in every state of every run: `init_blockchain` must not
fail for want of a thread, and the sweep of `prune_chain` must run to its end, unless all marks were
there before and it drops nothing. -/
theorem failsCleanly_iff {es : List LifeEvent}
    (h : Run.exec (Lifecycle.step H) .fresh es = some m) (e : LifeEvent) :
    m.FailsCleanly H e ↔ m.Clean e := by
  obtain ⟨hs, hlisted⟩ := Lifecycle.exec_listed h
  match e with
  | .init created => exact hs.init_failsCleanly_iff created
  | .call (.addBlock data length pick) =>
    rw [hs.call_failsCleanly_iff rfl]
    exact iff_of_true (fun hfail ↦ hs.call_failsCleanly rfl (by simp) hfail) trivial
  | .call (.toLongest k) =>
    rw [hs.call_failsCleanly_iff rfl]
    exact iff_of_true (fun hfail ↦ hs.call_failsCleanly rfl (by simp) hfail) trivial
  | .call (.attachNow k) =>
    rw [hs.call_failsCleanly_iff rfl]
    exact iff_of_true (fun hfail ↦ hs.call_failsCleanly rfl (by simp) hfail) trivial
  | .call (.pruneChain pick pastEnd) =>
    rw [hs.call_failsCleanly_iff rfl, Lifecycle.Clean]
    by_cases hclosed : (!m.chain.isInitiated || m.chain.currentlyBlocked) = true
    · have hsame : perform H m.chain (.pruneChain pick pastEnd) = (.ret fail, m.chain) := by
        rw [perform, pruneChain, if_pos hclosed]
      rw [hsame]
      refine iff_of_true (fun _ ↦ .refl _) ?_
      rw [Bool.or_eq_true, Bool.not_eq_true'] at hclosed
      exact hclosed.imp_right .inl
    · have hlinked := hs.linked_of_open hclosed
      rw [← hlinked.prune_failsCleanly_iff hlisted]
      rw [hlinked.initiated, hlinked.unblocked]
      simp [perform]
  | .call (.daemon pick seed) => exact iff_of_true (Lifecycle.failsCleanly_of_exit rfl) trivial
  | .daemon .. | .close | .drain .. | .finish =>
    exact iff_of_true (Lifecycle.failsCleanly_of_exit rfl) trivial

/-- Pruning right after a block was added, before the daemon has taken it, marks the genesis block
and is left by an exception. -/
theorem exec_openedEvents_pending :
    ∃ m, Run.exec (Lifecycle.step plainHash) .fresh (openedEvents pendingEvents) = some m ∧
      ((pruneChain m.chain 0 (-1)).1, m.chain.blockMap[(0 : ℤ)]?, (m.chain.heap 0).isInLongest,
        ((pruneChain m.chain 0 (-1)).2.heap 0).isInLongest) =
          (.outOfRange, some 0, false, true) := by
  rw [← Option.map_eq_some_iff]
  decide

/-- A mark that the failing call sets is a change. -/
theorem not_failsCleanly_of_marked {es : List LifeEvent}
    (hm : Run.exec (Lifecycle.step H) .fresh es = some m)
    (h : ((pruneChain m.chain pick pastEnd).1, m.chain.blockMap[k]?, (m.chain.heap p).isInLongest,
      ((pruneChain m.chain pick pastEnd).2.heap p).isInLongest) =
        (.outOfRange, some p, false, true)) :
    ¬m.FailsCleanly H (.call (.pruneChain pick pastEnd)) := by
  simp only [Prod.mk.injEq] at h
  obtain ⟨hx, hp, hbefore, hafter⟩ := h
  rw [(Lifecycle.exec_listed hm).1.call_failsCleanly_iff rfl, perform, hx]
  intro hclean
  rw [(hclean failed_outOfRange).attached k p hp, hbefore] at hafter
  cases hafter

/-- When the daemon's thread cannot be created, `s_mutex` stays held, and the chain is never opened
again; and pruning next to a pending block leaves a mark. -/
theorem exists_not_failsCleanly :
    (∃ m, Lifecycle.fresh.step plainHash (.init false) = some m ∧
        ¬Lifecycle.fresh.FailsCleanly plainHash (.init false) ∧ ¬m.CanOpen plainHash) ∧
      ∃ m, Run.exec (Lifecycle.step plainHash) .fresh (openedEvents pendingEvents) = some m ∧
        ¬m.FailsCleanly plainHash (.call (.pruneChain 0 (-1))) := by
  constructor
  · obtain ⟨m, hm⟩ : ∃ m, Lifecycle.fresh.step plainHash (.init false) = some m := ⟨_, rfl⟩
    refine ⟨m, hm, fun hclean ↦ ?_, Lifecycle.Jammed.not_canOpen ?_ (Lifecycle.fresh_sound.step hm)⟩
    · exact absurd ((Lifecycle.fresh_sound.init_failsCleanly_iff false).mp hclean) (by decide)
    · rw [← Option.some.inj hm]
      exact ⟨rfl, rfl, rfl⟩
  · obtain ⟨m, hm, h⟩ := exec_openedEvents_pending
    exact ⟨m, hm, not_failsCleanly_of_marked hm h⟩

theorem failsCleanly_iff_sample :
    ∃ m, Run.exec (Lifecycle.step plainHash) .fresh (openedEvents pendingEvents) = some m ∧
      ¬m.Clean (.call (.pruneChain 0 (-1))) := by
  obtain ⟨m, hm, h⟩ := exec_openedEvents_pending
  refine ⟨m, hm, fun hclean ↦ ?_⟩
  exact not_failsCleanly_of_marked hm h ((failsCleanly_iff hm _).mpr hclean)

end Blockchain
