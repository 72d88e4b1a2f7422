import OsExercises.Uthreads.Order
import Mathlib.Algebra.Order.BigOperators.Group.Finset

/-!
# Counting quantums

The library counts quantums twice: `_quantum_counter` for all threads together, and a counter in
each `Thread`.  Both are increased in `runThread`, so a thread's counter says how often it was
chosen, and the sum of the counters of all threads that were ever made is the total.  The counters
are `int`s, so this is what the library reports as long as it has counted less than `2 ^ 31`
quantums.

* `startQuantum_total` and `startQuantum_getQuantom` say that a quantum is a `++` of two `int`s.
* `Effect.quantom_eq` and `Effect.quantumCounter_eq` say what one act does to the counters.
* `Lib.Balanced.step` is the step lemma, and `exec_balance` the law for whole runs.
-/

set_option autoImplicit false

namespace Uthreads

variable {s t : Lib} {p q r : ThreadPtr} {i : Fin numOfQueue} {rest : List ThreadPtr}
  {a : Act} {x : Exit} {e : Event}

/-! ## The counters are increased by one -/

/-- The `++` of `_quantum_counter`. -/
theorem startQuantum_total (s : Lib) (r : ThreadPtr) :
    uthreadGetTotalQuantums (startQuantum s r) =
      CLib.toInt32 (uthreadGetTotalQuantums s + 1) := by
  rw [uthreadGetTotalQuantums, uthreadGetTotalQuantums, CLib.toInt32_add_one]
  rfl

/-- The `++` of the thread's own counter. -/
theorem startQuantum_getQuantom (s : Lib) (r : ThreadPtr) :
    ((startQuantum s r).heap r).getQuantom = CLib.toInt32 ((s.heap r).getQuantom + 1) := by
  rw [Thread.getQuantom, Thread.getQuantom, CLib.toInt32_add_one, startQuantum_heap_self]
  rfl

/-! ## The counters after an act -/

@[simp] theorem setState_quantom (s : Lib) (r q : ThreadPtr) (st : State) :
    ((s.setState r st).heap q).quantom = (s.heap q).quantom := by
  by_cases hq : q = r
  · simp [hq]
  · simp [hq]

@[simp] theorem saveBuf_quantom (s : Lib) (r q : ThreadPtr) (place : SavePoint) :
    ((s.saveBuf r place).heap q).quantom = (s.heap q).quantom := by
  by_cases hq : q = r
  · simp [hq]
  · simp [hq]

@[simp] theorem startQuantum_quantom (s : Lib) (r q : ThreadPtr) :
    ((startQuantum s r).heap q).quantom = (s.heap q).quantom + if r = q then 1 else 0 := by
  by_cases hq : q = r
  · subst hq
    simp [startQuantum_heap_self]
  · simp [startQuantum_heap_of_ne hq, Ne.symm hq]

@[simp] theorem giveWay_quantom (s : Lib) :
    ((s.giveWay i p rest).heap q).quantom = (s.heap q).quantom + if p = q then 1 else 0 :=
  startQuantum_quantom _ _ _

/-- **A choice is counted for the thread it falls on**, and nothing else is counted. -/
theorem Effect.quantom_eq (he : Effect s a x t) (hq : q < s.brk) : (t.heap q).quantom =
    (s.heap q).quantom + if x = .jump ∧ t.running = some q then 1 else 0 := by
  cases he with
  | tickFirst => simp [Lib.giveWay, Lib.pushReady, Lib.setReady]
  | @tickIdle r hr hidle =>
    have hrun : (startQuantum ((s.sigBlock.saveBuf r (.handler s.mask)).setState r
      .ready) r).running = some r := hr
    simp [-startQuantum_running, hrun]
  | landUser => simp
  | landSuspend => simp [Lib.giveWay]
  | spawn hr pr => simp [spawned_heap _ pr (show q < s.sigBlock.brk from hq)]
  | terminateRunning => simp [Lib.giveWay]
  | suspendRunning => simp [Lib.giveWay]
  | _ => simp

/-- A new thread has had no quantum. -/
theorem Effect.brk_cases (he : Effect s a x t) :
    t.brk = s.brk ∨ t.brk = s.brk + 1 ∧ (t.heap s.brk).quantom = 0 ∧ x ≠ .jump := by
  cases he with
  | spawn hr pr =>
    refine .inr ⟨rfl, ?_, by simp⟩
    change (Function.update s.heap s.brk (Thread.new _ pr .ready) s.brk).quantom = 0
    rw [Function.update_self]
    rfl
  | _ => exact .inl rfl

/-- The total is increased with each choice. -/
theorem Effect.quantumCounter_eq (he : Effect s a x t) :
    t.quantumCounter = s.quantumCounter + if x = .jump then 1 else 0 := by
  cases he <;> rfl

/-! ## The law -/

/-- How often the events of a run made `p` the running thread: the choices that fell on `p`.  A
thread that goes on behind the `saveBuf` in `uthread_suspend` makes the switch of that call once
more, and this is a choice too. -/
def turns (p : ThreadPtr) (s : Lib) : List Event → ℕ
  | [] => 0
  | e :: es =>
    match step s e with
    | none => 0
    | some t => (if selects s e = true ∧ t.running = some p then 1 else 0) + turns p t es

/-- The total is the sum of the counters of all threads ever made. -/
def Lib.Balanced (s : Lib) : Prop :=
  s.quantumCounter = ∑ p ∈ Finset.range s.brk, (s.heap p).quantom

/-- As long as the total is a positive `int`, it is what the library reports, and so are the
counters of the threads. -/
theorem Lib.Balanced.getQuantom (hb : s.Balanced) (hlt : s.quantumCounter < 2 ^ 31)
    (hp : p < s.brk) : (s.heap p).getQuantom = (s.heap p).quantom := by
  have hle : (s.heap p).quantom ≤ s.quantumCounter := by
    rw [hb]
    exact Finset.single_le_sum (f := fun p ↦ (s.heap p).quantom) (fun _ _ ↦ Nat.zero_le _)
      (Finset.mem_range.mpr hp)
  exact CLib.toInt32_of_lt (hle.trans_lt hlt)

/-- **What a step of a run counts.** -/
theorem step_quantom (h : Settled s ∧ s.Bounded) (hst : step s e = some t) (hq : q < s.brk) :
    (t.heap q).quantom =
      (s.heap q).quantom + if selects s e = true ∧ t.running = some q then 1 else 0 := by
  rcases step_passes h hst with ⟨hp, rfl⟩ | ⟨hp, x, he⟩
  · simp [selects, hp]
  · simp only [he.quantom_eq hq, selects, hp, Bool.true_and, he.selects_iff h.1.wf]

/-- **The step lemma** for the total. -/
theorem Lib.Balanced.step (hb : s.Balanced) (h : Settled s ∧ s.Bounded)
    (hst : step s e = some t) : t.Balanced := by
  rcases step_passes h hst with ⟨-, rfl⟩ | ⟨-, x, he⟩
  · exact hb
  have hold : ∑ p ∈ Finset.range s.brk, (t.heap p).quantom = t.quantumCounter := by
    rw [Finset.sum_congr rfl fun p hp ↦ he.quantom_eq (Finset.mem_range.mp hp),
      Finset.sum_add_distrib, ← hb, he.quantumCounter_eq]
    congr 1
    by_cases hx : x = .jump
    · -- the thread the choice falls on was made before
      obtain ⟨r, hr⟩ := Option.isSome_iff_exists.mp (he.running h.1.running)
      have hlt : r < s.brk := by
        subst hx
        rcases he.chosen with ⟨i, p, rest, hf, hrun⟩ | ⟨-, -, hrun⟩
        · cases hrun.symm.trans hr
          exact h.1.wf.lt_brk _ _ (h.1.wf.live_of_ready hf.mem)
        · exact h.1.wf.lt_brk _ _ (h.1.wf.live_of_running (hrun ▸ hr))
      simp [hx, hr, hlt]
    · simp [hx]
  rcases he.brk_cases with hbrk | ⟨hbrk, hzero, -⟩
  · rw [Lib.Balanced, hbrk, hold]
  · rw [Lib.Balanced, hbrk, Finset.sum_range_succ, hold, hzero, add_zero]

/-- **The run lemma**: the counter of a thread that is there at the beginning of a run goes up by
the number of choices that fall on it. -/
theorem exec_quantom {es : List Event} (h : Settled s ∧ s.Bounded)
    (hst : Run.exec step s es = some t) (hq : q < s.brk) :
    (t.heap q).quantom = (s.heap q).quantom + turns q s es := by
  induction es generalizing s with
  | nil =>
    cases hst
    rfl
  | cons e es ih =>
    obtain ⟨u, hu, hut⟩ := Run.exec_cons_eq_some.mp hst
    have hlt : q < u.brk := by
      rcases step_passes h hu with ⟨-, rfl⟩ | ⟨-, x, he⟩
      · exact hq
      · exact hq.trans_le he.brk_le
    rw [ih (step_settled h hu) hut hlt, step_quantom h hu hq, turns, hu]
    simp only
    omega

/-- Before a thread is made, no choice falls on it. -/
theorem step_not_chosen (h : Settled s ∧ s.Bounded) (hst : step s e = some t) (hq : s.brk ≤ q) :
    ¬(selects s e = true ∧ t.running = some q) := by
  rintro ⟨hsel, hrun⟩
  have hlive : ∀ {r}, s.Live r → r ≠ q := fun hr hrq ↦
    absurd (h.1.wf.lt_brk _ _ hr) (hrq ▸ not_lt.mpr hq)
  rcases step_passes h hst with ⟨hp, rfl⟩ | ⟨hp, x, he⟩
  · simp [selects, hp] at hsel
  · rw [selects, hp, Bool.true_and, he.selects_iff h.1.wf] at hsel
    subst hsel
    rcases he.chosen with ⟨i, p, rest, hf, hrun'⟩ | ⟨-, -, hrun'⟩
    · cases hrun'.symm.trans hrun
      exact hlive (h.1.wf.live_of_ready hf.mem) rfl
    · exact hlive (h.1.wf.live_of_running (hrun'.symm.trans hrun)) rfl

/-- The counter of a thread that is made in the course of a run is the number of choices that fall
on it. -/
theorem exec_quantom_new {es : List Event} (h : Settled s ∧ s.Bounded)
    (hst : Run.exec step s es = some t) (hq : s.brk ≤ q) (hqt : q < t.brk) :
    (t.heap q).quantom = turns q s es := by
  induction es generalizing s with
  | nil =>
    cases hst
    exact absurd hqt (not_lt.mpr hq)
  | cons e es ih =>
    obtain ⟨u, hu, hut⟩ := Run.exec_cons_eq_some.mp hst
    have hturns : turns q s (e :: es) = turns q u es := by
      simp [turns, hu, step_not_chosen h hu hq]
    rw [hturns]
    by_cases hqu : u.brk ≤ q
    · exact ih (step_settled h hu) hut hqu
    · rw [exec_quantom (step_settled h hu) hut (not_le.mp hqu)]
      rcases step_passes h hu with ⟨-, rfl⟩ | ⟨-, x, he⟩
      · exact absurd hq hqu
      · rcases he.brk_cases with hbrk | ⟨hbrk, hzero, -⟩
        · exact absurd (hbrk ▸ hq) hqu
        · rw [hbrk, not_le] at hqu
          have hqs : q = s.brk := le_antisymm (Nat.lt_succ_iff.mp hqu) hq
          rw [hqs, hzero, zero_add]

/-- A thread that is not live stays so, and no choice falls on it. -/
theorem step_dead (h : Settled s ∧ s.Bounded) (hst : step s e = some t) (hq : q < s.brk)
    (hd : ¬s.Live q) : ¬t.Live q ∧ q < t.brk ∧ (t.heap q).quantom = (s.heap q).quantom := by
  have hlive : ¬t.Live q := by
    rcases step_passes h hst with ⟨-, rfl⟩ | ⟨-, x, he⟩
    · exact hd
    · exact fun hl ↦ hd ((he.live_iff h.1.wf hq).mp hl).1
  have hbrk : q < t.brk := by
    rcases step_passes h hst with ⟨-, rfl⟩ | ⟨-, x, he⟩
    · exact hq
    · exact hq.trans_le he.brk_le
  have hrun : t.running ≠ some q := fun hr ↦
    hlive ((step_settled h hst).1.wf.live_of_running hr)
  exact ⟨hlive, hbrk, by simp [step_quantom h hst hq, hrun]⟩

/-- The counter of a thread that was terminated stays what it was. -/
theorem exec_dead {es : List Event} (h : Settled s ∧ s.Bounded)
    (hst : Run.exec step s es = some t) (hq : q < s.brk) (hd : ¬s.Live q) :
    (t.heap q).quantom = (s.heap q).quantom := by
  refine (Run.exec_induction (I := fun u ↦ (Settled u ∧ u.Bounded) ∧ ¬u.Live q ∧ q < u.brk ∧
    (u.heap q).quantom = (s.heap q).quantom) (fun u e v hu huv ↦ ?_) ⟨h, hd, hq, rfl⟩ hst).2.2.2
  obtain ⟨hs, hdead, hlt, heq⟩ := hu
  obtain ⟨h1, h2, h3⟩ := step_dead hs huv hlt hdead
  exact ⟨step_settled hs huv, h1, h2, h3.trans heq⟩

/-- What `uthread_init` counts: the main thread's first quantum. -/
theorem uthreadInit_quantom {k : ℤ} {s₀ : Lib} (h0 : uthreadInit Lib.fresh k = (success, s₀)) :
    s₀.brk = 1 ∧ s₀.running = some 0 ∧ (s₀.heap 0).quantom = 1 ∧ s₀.quantumCounter = 1 := by
  rw [uthreadInit] at h0
  split at h0
  · simp [success, fail] at h0
  · rw [← (Prod.mk.inj h0).2]
    exact ⟨rfl, rfl, by simp [Lib.fresh, Thread.new], rfl⟩

/-- **The run lemma** for the total. -/
theorem exec_balanced {k : ℤ} {s₀ : Lib} {es : List Event}
    (h0 : uthreadInit Lib.fresh k = (success, s₀)) (h : Run.exec step s₀ es = some s) :
    s.Balanced := by
  obtain ⟨hbrk, -, hquantom, htotal⟩ := uthreadInit_quantom h0
  refine (Run.exec_induction (I := fun u ↦ (Settled u ∧ u.Bounded) ∧ u.Balanced)
    (fun u e v hu huv ↦ ⟨step_settled hu.1 huv, hu.2.step hu.1 huv⟩)
    ⟨uthreadInit_settled h0, ?_⟩ h).2
  simp [Lib.Balanced, hbrk, hquantom, htotal]

/-- What the counter of a thread is after a run from `uthread_init`. -/
theorem exec_quantom_eq {k : ℤ} {s₀ : Lib} {es : List Event}
    (h0 : uthreadInit Lib.fresh k = (success, s₀)) (h : Run.exec step s₀ es = some s)
    (hp : p < s.brk) :
    (s.heap p).quantom = (if s₀.running = some p then 1 else 0) + turns p s₀ es := by
  have hset₀ := uthreadInit_settled h0
  obtain ⟨hbrk, hrun, hquantom, -⟩ := uthreadInit_quantom h0
  by_cases hlt : p < s₀.brk
  · have hp0 : p = 0 := Nat.lt_one_iff.mp (hbrk ▸ hlt)
    rw [exec_quantom hset₀ h hlt, hp0, hquantom, if_pos hrun]
  · have hp0 : s₀.running ≠ some p := by
      rw [hrun]
      rintro ⟨⟩
      exact hlt (by rw [hbrk]; exact Nat.one_pos)
    rw [exec_quantom_new hset₀ h (not_lt.mp hlt) hp, if_neg hp0, zero_add]

/-- **Quantum accounting balances.**  After any run from `uthread_init` with less than `2 ^ 31`
quantums the total is the sum of the counters of all threads ever made, and every thread's counter
is the number of times it was made running: once by `uthread_init` for the main thread, and once by
every choice that fell on it.  The counter of a terminated thread stays what it was, and that of a
live one is what `uthread_get_quantums` returns. -/
theorem exec_balance {k : ℤ} {s₀ : Lib} {es : List Event}
    (h0 : uthreadInit Lib.fresh k = (success, s₀)) (h : Run.exec step s₀ es = some s)
    (hlt : s.quantumCounter < 2 ^ 31) :
    uthreadGetTotalQuantums s = ∑ p ∈ Finset.range s.brk, (s.heap p).getQuantom ∧
      (∀ p < s.brk, (s.heap p).getQuantom =
        ((if s₀.running = some p then 1 else 0) + turns p s₀ es : ℕ)) ∧
      (∀ p < s.brk, ¬s.Live p → ∀ fs t, Run.exec step s fs = some t →
        (t.heap p).getQuantom = (s.heap p).getQuantom) ∧
      ∀ (tid : ℤ) (p : ThreadPtr), s.threads[tid]? = some p →
        uthreadGetQuantums s tid = (s.heap p).getQuantom := by
  have hset := exec_settled h0 h
  have hb := exec_balanced h0 h
  have hget : ∀ p < s.brk, (s.heap p).getQuantom = (s.heap p).quantom :=
    fun p hp ↦ hb.getQuantom hlt hp
  refine ⟨?_, fun p hp ↦ ?_, fun p hp hd fs t ht ↦ ?_, fun tid p hp ↦ ?_⟩
  · rw [Finset.sum_congr rfl fun p hp ↦ hget p (Finset.mem_range.mp hp), ← Nat.cast_sum, ← hb]
    exact CLib.toInt32_of_lt hlt
  · rw [hget p hp, exec_quantom_eq h0 h hp]
  · rw [Thread.getQuantom, exec_dead hset ht hp hd, Thread.getQuantom]
  · rw [uthreadGetQuantums, hp]

/-- A run with two threads, one of which is terminated. -/
def countedEvents : List Event :=
  [.call (.spawn .red), .tick, .land, .tick, .land, .call (.terminate 1), .tick, .land]

theorem exec_balance_sample :
    ∃ s₀ s, uthreadInit Lib.fresh 1 = (success, s₀) ∧ Run.exec step s₀ countedEvents = some s ∧
      uthreadGetTotalQuantums s = ∑ p ∈ Finset.range s.brk, (s.heap p).getQuantom ∧
      uthreadGetTotalQuantums s = 4 := by
  obtain ⟨s, hs, hcounter⟩ : ∃ s, Run.exec step (uthreadInit Lib.fresh 1).2 countedEvents = some s ∧
      s.quantumCounter = 4 := by
    rw [← Option.map_eq_some_iff]
    decide
  have htotal := (exec_balance (k := 1) rfl hs (by omega)).1
  exact ⟨_, s, rfl, hs, htotal, by rw [uthreadGetTotalQuantums, hcounter]; rfl⟩

end Uthreads
