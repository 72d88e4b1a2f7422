import OsExercises.Uthreads.Defs
import Mathlib.Algebra.BigOperators.Fin
import Mathlib.Data.List.Count
import Mathlib.Data.List.Perm.Basic

/-!
# Where the threads are

Every thread the library knows is in exactly one of five containers: it is the running thread, or in
one of the three ready queues, or blocked.  The functions of the library move threads between these
containers one at a time, and between two moves the thread being moved is held only by a local
variable.  `Wf fl s` is the invariant with a list `fl` of such threads in hand; at the beginning and
at the end of a call the list is empty.

Counting is what makes the moves easy: `occ fl s p` says how often `p` occurs anywhere, and the
invariant is that this is one for the threads of `_threads` and zero for every other address.  So a
move is a lemma about one container (`Wf.takeReady`, `Wf.putReady`, …), and a function of the
library is a chain of moves.
-/

set_option autoImplicit false

namespace Uthreads

variable {s : Lib} {fl : List ThreadPtr} {p q r : ThreadPtr} {i : Fin numOfQueue}

/-! ## Containers -/

/-- The queue of a priority. -/
def queueOf : Priority → Fin numOfQueue
  | .red => redQ
  | .orange => orangeQ
  | .green => greenQ

theorem addToReady_some (s : Lib) (p : ThreadPtr) :
    addToReady s (some p) = s.pushReady (queueOf (s.heap p).pr) p := by
  rw [addToReady]
  cases (s.heap p).pr <;> rfl

/-- A thread is live when `_threads` files it under its own id. -/
def Lib.Live (s : Lib) (p : ThreadPtr) : Prop := s.threads[(s.heap p).tid]? = some p

instance (s : Lib) (p : ThreadPtr) : Decidable (s.Live p) :=
  inferInstanceAs (Decidable (s.threads[(s.heap p).tid]? = some p))

/-- The ids in use are those that name a thread. -/
theorem Lib.mem_threads_iff {s : Lib} {tid : ℤ} :
    tid ∈ s.threads ↔ ∃ p, s.threads[tid]? = some p := by
  rw [Std.TreeMap.mem_iff_isSome_getElem?, Option.isSome_iff_exists]

/-- How often `p` occurs in the ready queues. -/
def Lib.readyCount (s : Lib) (p : ThreadPtr) : ℕ := ∑ i, (s.ready i).count p

/-- How often `p` occurs in the five containers and in the hand. -/
def occ (fl : List ThreadPtr) (s : Lib) (p : ThreadPtr) : ℕ :=
  fl.count p + s.running.toList.count p + s.readyCount p + s.blocked.count p

/-- Replacing one queue changes the count by the difference of the two queues. -/
theorem readyCount_setReady (s : Lib) (i : Fin numOfQueue) (l : List ThreadPtr) (p : ThreadPtr) :
    (s.setReady i l).readyCount p + (s.ready i).count p = s.readyCount p + l.count p := by
  simp only [Lib.readyCount, Lib.setReady, Fin.sum_univ_three]
  obtain rfl | rfl | rfl : i = 0 ∨ i = 1 ∨ i = 2 := by decide +revert
  · simp [Function.update]; omega
  · simp [Function.update]; omega
  · simp [Function.update]; omega

theorem count_le_readyCount (s : Lib) (i : Fin numOfQueue) (p : ThreadPtr) :
    (s.ready i).count p ≤ s.readyCount p := by
  simp only [Lib.readyCount, Fin.sum_univ_three]
  obtain rfl | rfl | rfl : i = 0 ∨ i = 1 ∨ i = 2 := by decide +revert
  · omega
  · omega
  · omega

/-! ## The invariant -/

/-- The library's data fit together, with the threads of `fl` in hand. -/
structure Wf (fl : List ThreadPtr) (s : Lib) : Prop where
  /-- Live threads occur once, other addresses not at all. -/
  occ_eq : ∀ p, occ fl s p = if s.Live p then 1 else 0
  /-- A key is its thread's id. -/
  key : ∀ (k : ℤ) (p : ThreadPtr), s.threads[k]? = some p → (s.heap p).tid = k
  /-- Keys are not negative. -/
  nonneg : ∀ (k : ℤ) (p : ThreadPtr), s.threads[k]? = some p → 0 ≤ k
  /-- The next free address is not in use. -/
  lt_brk : ∀ (k : ℤ) (p : ThreadPtr), s.threads[k]? = some p → p < s.brk
  /-- The running thread is marked as running. -/
  running : ∀ p, s.running = some p → (s.heap p).state = .running
  /-- The threads in a ready queue are marked as ready and have the priority of the queue. -/
  ready : ∀ i, ∀ p ∈ s.ready i, (s.heap p).state = .ready ∧ queueOf (s.heap p).pr = i
  /-- The blocked threads are marked as blocked. -/
  blocked : ∀ p ∈ s.blocked, (s.heap p).state = .block
  /-- The main thread is there, is not blocked, and never suspended itself. -/
  main : ∃ m, s.threads[mainThread]? = some m ∧ m ∉ s.blocked ∧
    (s.heap m).jmpBuf.place ≠ .suspend

theorem Wf.occ_le (h : Wf fl s) (p : ThreadPtr) : occ fl s p ≤ 1 := by
  rw [h.occ_eq p]
  split <;> omega

theorem Wf.live_iff (h : Wf fl s) : s.Live p ↔ 0 < occ fl s p := by
  rw [h.occ_eq p]
  split <;> simp_all

theorem Wf.live_of_threads (h : Wf fl s) {k : ℤ} (hk : s.threads[k]? = some p) : s.Live p := by
  rw [Lib.Live, h.key k p hk, hk]

/-- A thread in hand is in no container. -/
theorem Wf.not_placed (h : Wf fl s) (hp : p ∈ fl) :
    s.running ≠ some p ∧ (∀ i, p ∉ s.ready i) ∧ p ∉ s.blocked := by
  have h1 := h.occ_le p
  have h2 : 0 < fl.count p := List.count_pos_iff.mpr hp
  rw [occ] at h1
  refine ⟨fun hr ↦ ?_, fun i hi ↦ ?_, fun hb ↦ ?_⟩
  · rw [hr] at h1
    simp at h1
    omega
  · have h3 := count_le_readyCount s i p
    have h4 : 0 < (s.ready i).count p := List.count_pos_iff.mpr hi
    omega
  · have h3 : 0 < s.blocked.count p := List.count_pos_iff.mpr hb
    omega

/-! ## Moves

One lemma for each way a thread is taken into the hand, changed there, or put back. -/

/-- Threads may change as long as ids stay, the threads that are placed keep their priority and
state, and the main thread's context does not become one saved in `uthread_suspend`. -/
theorem Wf.withHeap (h : Wf fl s) {heap : ThreadPtr → Thread}
    (htid : ∀ q, (heap q).tid = (s.heap q).tid)
    (hkeep : ∀ q, q ∉ fl → (heap q).pr = (s.heap q).pr ∧ (heap q).state = (s.heap q).state)
    (hm : ∀ m, s.threads[mainThread]? = some m → (s.heap m).jmpBuf.place ≠ .suspend →
      (heap m).jmpBuf.place ≠ .suspend) : Wf fl { s with heap := heap } := by
  have hlive : ∀ q, Lib.Live { s with heap := heap } q ↔ s.Live q := fun q ↦ by
    simp only [Lib.Live, htid q]
  obtain ⟨m, hm1, hm2, hm3⟩ := h.main
  refine ⟨fun q ↦ ?_, fun k q hk ↦ (htid q).trans (h.key k q hk), h.nonneg,
    h.lt_brk, fun q hq ↦ ?_,
    fun i q hq ↦ ?_, fun q hq ↦ ?_, m, hm1, hm2, hm m hm1 hm3⟩
  · simp only [hlive]
    exact h.occ_eq q
  · have hfl : q ∉ fl := fun hfl ↦ (h.not_placed hfl).1 hq
    exact (hkeep q hfl).2.trans (h.running q hq)
  · have hfl : q ∉ fl := fun hfl ↦ (h.not_placed hfl).2.1 i hq
    obtain ⟨h1, h2⟩ := hkeep q hfl
    exact ⟨h2.trans (h.ready i q hq).1, by rw [h1]; exact (h.ready i q hq).2⟩
  · have hfl : q ∉ fl := fun hfl ↦ (h.not_placed hfl).2.2 hq
    exact (hkeep q hfl).2.trans (h.blocked q hq)

/-- The state of a thread in hand may be changed. -/
theorem Wf.setState (h : Wf fl s) (hp : p ∈ fl) (st : State) : Wf fl (s.setState p st) := by
  refine h.withHeap (fun q ↦ ?_) (fun q hq ↦ ?_) (fun m _ hm ↦ ?_)
  · by_cases hqp : q = p
    · subst hqp; simp
    · simp [hqp]
  · have hqp : q ≠ p := fun hqp ↦ hq (hqp ▸ hp)
    simp [hqp]
  · by_cases hmp : m = p
    · subst hmp; simpa using hm
    · simpa [hmp] using hm

/-- Counting a quantum moves nothing. -/
theorem Wf.increaseQuantom (h : Wf fl s) (p : ThreadPtr) : Wf fl (s.increaseQuantom p) := by
  refine h.withHeap (fun q ↦ ?_) (fun q _ ↦ ?_) (fun m _ hm ↦ ?_)
  · by_cases hqp : q = p
    · subst hqp; simp
    · simp [hqp]
  · by_cases hqp : q = p
    · subst hqp; simp
    · simp [hqp]
  · by_cases hmp : m = p
    · subst hmp; simpa using hm
    · simpa [hmp] using hm

/-- Saving a context moves nothing.  Only a thread that is not the main thread saves it in
`uthread_suspend`. -/
theorem Wf.saveBuf (h : Wf fl s) {place : SavePoint}
    (hp : (s.heap p).tid = mainThread → place ≠ .suspend) : Wf fl (s.saveBuf p place) := by
  refine h.withHeap (fun q ↦ ?_) (fun q _ ↦ ?_) (fun m hm1 hm ↦ ?_)
  · by_cases hqp : q = p
    · subst hqp; simp
    · simp [hqp]
  · by_cases hqp : q = p
    · subst hqp; simp
    · simp [hqp]
  · by_cases hmp : m = p
    · subst hmp; simpa using hp (h.key _ _ hm1)
    · simpa [hmp] using hm

/-- The mask and the quantum counter are not part of the invariant. -/
theorem Wf.congr {m : Bool} {c : ℕ} (h : Wf fl s) :
    Wf fl { s with mask := m, quantumCounter := c } :=
  ⟨h.occ_eq, h.key, h.nonneg, h.lt_brk, h.running, h.ready, h.blocked, h.main⟩

/-- Take the running thread into the hand. -/
theorem Wf.takeRunning (h : Wf fl s) (hr : s.running = some r) :
    Wf (r :: fl) { s with running := none } := by
  have hocc : ∀ p, occ (r :: fl) { s with running := none } p = occ fl s p := fun p ↦ by
    simp only [occ, hr, Lib.readyCount, Option.toList_some, Option.toList_none, List.count_cons,
      List.count_nil]
    omega
  exact ⟨fun p ↦ (hocc p).trans (h.occ_eq p), h.key, h.nonneg, h.lt_brk, by simp, h.ready,
    h.blocked, h.main⟩

/-- Make a thread in hand the running one. -/
theorem Wf.putRunning (h : Wf (r :: fl) s) (hn : s.running = none)
    (hst : (s.heap r).state = .running) : Wf fl { s with running := some r } := by
  have hocc : ∀ p, occ fl { s with running := some r } p = occ (r :: fl) s p := fun p ↦ by
    simp only [occ, hn, Lib.readyCount, Option.toList_some, Option.toList_none, List.count_cons,
      List.count_nil]
    omega
  refine ⟨fun p ↦ (hocc p).trans (h.occ_eq p), h.key, h.nonneg, h.lt_brk, ?_, h.ready, h.blocked,
    h.main⟩
  rintro p ⟨⟩
  exact hst

/-- Take a thread out of a ready queue. -/
theorem Wf.takeReady (h : Wf fl s) (hp : p ∈ s.ready i) :
    Wf (p :: fl) (s.setReady i ((s.ready i).erase p)) := by
  have hsub : ∀ j, ∀ q ∈ (s.setReady i ((s.ready i).erase p)).ready j, q ∈ s.ready j := by
    intro j q hq
    by_cases hj : j = i
    · subst hj
      exact List.mem_of_mem_erase (by simpa using hq)
    · simpa [hj] using hq
  have hocc : ∀ q, occ (p :: fl) (s.setReady i ((s.ready i).erase p)) q = occ fl s q := fun q ↦ by
    have h1 := readyCount_setReady s i ((s.ready i).erase p) q
    have h2 : 0 < (s.ready i).count p := List.count_pos_iff.mpr hp
    have h3 : (s.setReady i ((s.ready i).erase p)).running = s.running := rfl
    have h4 : (s.setReady i ((s.ready i).erase p)).blocked = s.blocked := rfl
    rw [List.count_erase] at h1
    simp only [occ, List.count_cons, h3, h4, beq_iff_eq] at h1 ⊢
    by_cases hpq : p = q
    · subst hpq
      simp only [if_true] at h1 ⊢
      omega
    · simp only [hpq, if_false] at h1 ⊢
      omega
  exact ⟨fun q ↦ (hocc q).trans (h.occ_eq q), h.key, h.nonneg, h.lt_brk, h.running,
    fun j q hq ↦ h.ready j q (hsub j q hq), h.blocked, h.main⟩

/-- Put a thread in hand at the end of the queue of its priority. -/
theorem Wf.putReady (h : Wf (p :: fl) s) (hst : (s.heap p).state = .ready) :
    Wf fl (s.pushReady (queueOf (s.heap p).pr) p) := by
  set i := queueOf (s.heap p).pr with hi
  have hocc : ∀ q, occ fl (s.pushReady i p) q = occ (p :: fl) s q := fun q ↦ by
    have h1 := readyCount_setReady s i (s.ready i ++ [p]) q
    have h3 : (s.setReady i (s.ready i ++ [p])).running = s.running := rfl
    have h4 : (s.setReady i (s.ready i ++ [p])).blocked = s.blocked := rfl
    simp only [Lib.pushReady, occ, List.count_cons, List.count_append, List.count_nil, h3, h4]
      at h1 ⊢
    omega
  refine ⟨fun q ↦ (hocc q).trans (h.occ_eq q), h.key, h.nonneg, h.lt_brk, h.running,
    fun j q hq ↦ ?_, h.blocked, h.main⟩
  by_cases hj : j = i
  · subst hj
    rw [Lib.pushReady, Lib.setReady_ready_self, List.mem_append, List.mem_singleton] at hq
    rcases hq with hq | rfl
    · exact h.ready _ q hq
    · exact ⟨hst, hi.symm⟩
  · exact h.ready j q (by simpa [Lib.pushReady, hj] using hq)

/-- Take a blocked thread into the hand. -/
theorem Wf.takeBlocked (h : Wf fl s) (hp : p ∈ s.blocked) :
    Wf (p :: fl) { s with blocked := s.blocked.erase p } := by
  have hocc : ∀ q, occ (p :: fl) { s with blocked := s.blocked.erase p } q = occ fl s q := by
    intro q
    have h2 : 0 < s.blocked.count p := List.count_pos_iff.mpr hp
    simp only [occ, Lib.readyCount, List.count_cons, List.count_erase, beq_iff_eq]
    by_cases hpq : p = q
    · subst hpq
      simp only [if_true]
      omega
    · simp only [hpq, if_false]
      omega
  obtain ⟨m, hm1, hm2, hm3⟩ := h.main
  exact ⟨fun q ↦ (hocc q).trans (h.occ_eq q), h.key, h.nonneg, h.lt_brk, h.running, h.ready,
    fun q hq ↦ h.blocked q (List.mem_of_mem_erase hq), m, hm1,
    fun hm ↦ hm2 (List.mem_of_mem_erase hm), hm3⟩

/-- Block a thread in hand that is not the main thread. -/
theorem Wf.putBlocked (h : Wf (p :: fl) s) (hst : (s.heap p).state = .block)
    (hp : (s.heap p).tid ≠ mainThread) : Wf fl (s.pushBlocked p) := by
  have hocc : ∀ q, occ fl (s.pushBlocked p) q = occ (p :: fl) s q := fun q ↦ by
    simp only [Lib.pushBlocked, occ, Lib.readyCount, List.count_cons, List.count_append,
      List.count_nil]
    omega
  obtain ⟨m, hm1, hm2, hm3⟩ := h.main
  refine ⟨fun q ↦ (hocc q).trans (h.occ_eq q), h.key, h.nonneg, h.lt_brk, h.running, h.ready,
    fun q hq ↦ ?_, m, hm1, fun hm ↦ ?_, hm3⟩
  · rcases List.mem_append.mp hq with hq | hq
    · exact h.blocked q hq
    · rw [List.mem_singleton] at hq
      subst hq
      exact hst
  · rcases List.mem_append.mp hm with hm | hm
    · exact hm2 hm
    · rw [List.mem_singleton] at hm
      subst hm
      exact hp (h.key _ _ hm1)

/-- Forget a thread in hand that is not the main thread. -/
theorem Wf.drop (h : Wf (p :: fl) s) (hp : (s.heap p).tid ≠ mainThread) :
    Wf fl { s with threads := s.threads.erase (s.heap p).tid } := by
  have hget : ∀ k : ℤ, (s.threads.erase (s.heap p).tid)[k]? =
      if (s.heap p).tid = k then none else s.threads[k]? := by
    intro k
    simp [Std.TreeMap.getElem?_erase]
  have hsub : ∀ (k : ℤ) (q : ThreadPtr), (s.threads.erase (s.heap p).tid)[k]? = some q →
      s.threads[k]? = some q := by
    intro k q hk
    rw [hget] at hk
    split at hk
    · simp at hk
    · exact hk
  have hlive : s.Live p := h.live_iff.mpr (by simp only [occ, List.count_cons_self]; omega)
  obtain ⟨m, hm1, hm2, hm3⟩ := h.main
  refine ⟨fun q ↦ ?_, fun k q hk ↦ h.key k q (hsub k q hk), fun k q hk ↦ h.nonneg k q (hsub k q hk),
    fun k q hk ↦ h.lt_brk k q (hsub k q hk), h.running, h.ready, h.blocked, m, ?_, hm2, hm3⟩
  · have h1 := h.occ_eq q
    have h2 : Lib.Live { s with threads := s.threads.erase (s.heap p).tid } q ↔
        s.Live q ∧ q ≠ p := by
      simp only [Lib.Live, hget]
      constructor
      · intro hq
        split at hq
        · simp at hq
        · rename_i hne
          exact ⟨hq, fun hqp ↦ hne (by rw [hqp])⟩
      · rintro ⟨hq, hqp⟩
        rw [if_neg fun he ↦ hqp ?_]
        · exact hq
        · rw [← he] at hq
          exact Option.some.inj (hq.symm.trans hlive)
    simp only [h2]
    simp only [occ, Lib.readyCount, List.count_cons] at h1 ⊢
    by_cases hqp : q = p
    · subst hqp
      simp only [beq_self_eq_true, if_true, hlive] at h1
      simp only [ne_eq, not_true_eq_false, and_false, if_false]
      omega
    · have hpq : ¬p = q := fun hpq ↦ hqp hpq.symm
      simp only [beq_iff_eq, hpq, if_false] at h1
      simp only [ne_eq, hqp, not_false_eq_true, and_true]
      omega
  · rw [hget, if_neg hp]
    exact hm1

/-- The next address is in no container yet. -/
theorem Wf.ne_brk (h : Wf fl s) {q : ThreadPtr}
    (hq : s.running = some q ∨ (∃ i, q ∈ s.ready i) ∨ q ∈ s.blocked) : q ≠ s.brk := by
  rintro rfl
  have hzero : occ fl s s.brk = 0 := by
    rw [h.occ_eq, if_neg]
    exact fun hk ↦ absurd (h.lt_brk _ _ hk) (by simp)
  rw [occ] at hzero
  rcases hq with hr | ⟨i, hi⟩ | hb
  · rw [hr] at hzero
    simp at hzero
  · have h1 := count_le_readyCount s i s.brk
    have h2 : 0 < (s.ready i).count s.brk := List.count_pos_iff.mpr hi
    omega
  · have h1 : 0 < s.blocked.count s.brk := List.count_pos_iff.mpr hb
    omega

/-- Make a new thread under an unused id and take it into the hand. -/
theorem Wf.create (h : Wf fl s) {tid : ℤ} (htid : tid ∉ s.threads) (hnn : 0 ≤ tid)
    (pr : Priority) (st : State) :
    Wf (s.brk :: fl) { s with
      heap := Function.update s.heap s.brk (Thread.new tid pr st)
      brk := s.brk + 1
      threads := s.threads.insertIfNew tid s.brk } := by
  set heap := Function.update s.heap s.brk (Thread.new tid pr st) with hheap
  set threads := s.threads.insertIfNew tid s.brk with hthreads
  have hget : ∀ k : ℤ, threads[k]? = if tid = k then some s.brk else s.threads[k]? := by
    intro k
    simp [hthreads, Std.TreeMap.getElem?_insertIfNew, htid]
  have hnone : s.threads[tid]? = none := by simpa using htid
  have hbrk : ∀ k : ℤ, s.threads[k]? ≠ some s.brk := fun k hk ↦ absurd (h.lt_brk k _ hk) (by simp)
  have hnew : heap s.brk = Thread.new tid pr st := by simp [hheap]
  have hold : ∀ q, q ≠ s.brk → heap q = s.heap q := fun q hq ↦ by simp [hheap, hq]
  have hzero : occ fl s s.brk = 0 := by
    rw [h.occ_eq, if_neg]
    exact hbrk _
  obtain ⟨m, hm1, hm2, hm3⟩ := h.main
  have hmb : m ≠ s.brk := fun hmb ↦ hbrk _ (hmb ▸ hm1)
  have htm : tid ≠ mainThread := fun he ↦ by simp [← he, hnone] at hm1
  refine ⟨fun q ↦ ?_, fun k q hk ↦ ?_, fun k q hk ↦ ?_, fun k q hk ↦ ?_, fun q hq ↦ ?_,
    fun i q hq ↦ ?_, fun q hq ↦ ?_, m, ?_, hm2, ?_⟩
  · have h1 : occ (s.brk :: fl) s q = occ fl s q + if s.brk = q then 1 else 0 := by
      simp only [occ, List.count_cons, beq_iff_eq]
      omega
    refine h1.trans ?_
    by_cases hq : q = s.brk
    · subst hq
      have hlive : threads[(heap s.brk).tid]? = some s.brk := by rw [hnew, hget]; simp [Thread.new]
      rw [hzero, if_pos rfl]
      exact (if_pos hlive).symm
    · have hlive : threads[(heap q).tid]? = some q ↔ s.Live q := by
        rw [hold q hq, hget, Lib.Live]
        split
        · rename_i he
          rw [← he, hnone]
          simp [Ne.symm hq]
        · rfl
      rw [if_neg (Ne.symm hq), Nat.add_zero, h.occ_eq q]
      exact if_congr hlive.symm rfl rfl
  · change threads[k]? = some q at hk
    change (heap q).tid = k
    rw [hget] at hk
    split at hk
    · cases hk
      rw [hnew]
      assumption
    · rw [hold q fun hq ↦ hbrk k (hq ▸ hk)]
      exact h.key k q hk
  · change threads[k]? = some q at hk
    rw [hget] at hk
    split at hk
    · omega
    · exact h.nonneg k q hk
  · change threads[k]? = some q at hk
    rw [hget] at hk
    split at hk
    · cases hk
      exact Nat.lt_succ_self _
    · exact Nat.lt_succ_of_lt (h.lt_brk k q hk)
  · change (heap q).state = _
    rw [hold q (h.ne_brk (.inl hq))]
    exact h.running q hq
  · change (heap q).state = _ ∧ queueOf (heap q).pr = i
    rw [hold q (h.ne_brk (.inr (.inl ⟨i, hq⟩)))]
    exact h.ready i q hq
  · change (heap q).state = _
    rw [hold q (h.ne_brk (.inr (.inr hq)))]
    exact h.blocked q hq
  · change threads[mainThread]? = some m
    rw [hget, if_neg htm]
    exact hm1
  · change (heap m).jmpBuf.place ≠ _
    rw [hold m hmb]
    exact hm3

/-! ## Counting the threads -/

/-- Everything that is in hand or in a container, in one list. -/
def everyone (fl : List ThreadPtr) (s : Lib) : List ThreadPtr :=
  fl ++ s.running.toList ++ (s.ready redQ ++ s.ready orangeQ ++ s.ready greenQ) ++ s.blocked

theorem count_everyone (fl : List ThreadPtr) (s : Lib) (p : ThreadPtr) :
    (everyone fl s).count p = occ fl s p := by
  simp only [everyone, List.count_append, occ, Lib.readyCount, Fin.sum_univ_three, redQ, orangeQ,
    greenQ]

theorem Wf.mem_everyone_iff (h : Wf fl s) : p ∈ everyone fl s ↔ s.Live p := by
  rw [← List.count_pos_iff, count_everyone, h.live_iff]

theorem Wf.everyone_nodup (h : Wf fl s) : (everyone fl s).Nodup :=
  List.nodup_iff_count_le_one.mpr fun p ↦ (count_everyone fl s p).trans_le (h.occ_le p)

theorem keys_nodup (m : Std.TreeMap ℤ ThreadPtr) : m.keys.Nodup :=
  m.distinct_keys.imp fun hne he ↦ hne (by simp [he])

/-- **The ids of the placed threads are the keys.** -/
theorem Wf.perm_keys (h : Wf fl s) :
    ((everyone fl s).map fun p ↦ (s.heap p).tid).Perm s.threads.keys := by
  have hinj : ∀ p ∈ everyone fl s, ∀ q ∈ everyone fl s,
      (s.heap p).tid = (s.heap q).tid → p = q := by
    intro p hp q hq hpq
    have h1 : s.Live p := h.mem_everyone_iff.mp hp
    have h2 : s.Live q := h.mem_everyone_iff.mp hq
    rw [Lib.Live, hpq] at h1
    exact Option.some.inj (h1.symm.trans h2)
  rw [List.perm_ext_iff_of_nodup (h.everyone_nodup.map_on hinj) (keys_nodup _)]
  intro k
  rw [List.mem_map, Std.TreeMap.mem_keys, Lib.mem_threads_iff]
  constructor
  · rintro ⟨p, hp, rfl⟩
    exact ⟨p, h.mem_everyone_iff.mp hp⟩
  · rintro ⟨p, hp⟩
    exact ⟨p, h.mem_everyone_iff.mpr (h.live_of_threads hp), h.key k p hp⟩

/-- The number of threads that are in a ready queue. -/
def Lib.readyLength (s : Lib) : ℕ := ∑ i, (s.ready i).length

/-- **The number of threads.** -/
theorem Wf.size_eq (h : Wf fl s) : s.threads.size =
    fl.length + s.running.toList.length + s.readyLength + s.blocked.length := by
  rw [← Std.TreeMap.length_keys, ← h.perm_keys.length_eq, List.length_map]
  simp only [everyone, List.length_append, Lib.readyLength, Fin.sum_univ_three, redQ, orangeQ,
    greenQ]

theorem Lib.readyLength_eq_zero : s.readyLength = 0 ↔ ∀ i, s.ready i = [] := by
  simp [Lib.readyLength]

end Uthreads
