import OsExercises.Uthreads.Ids
import OsExercises.Uthreads.Rotation

/-!
# A single thread of the highest priority

A tick takes the next thread out of the ready queues before it puts the former running thread there.
So a thread that is the only one of its priority, with nothing above it, is not chosen again at
once: the choice falls on the next priority, and only the tick after that falls on it again.

* `Ticks` says that the machine takes so many ticks, with the switches that follow them, and
  `Machine.turn` is one of them.
* `Alone` is a running thread of this kind with the line of the next priority, and `Alone.rounds`
  the run lemma: every two ticks rotate the line by one.
* `alternates_of_alone`: such a thread has every second quantum, and the threads of the next
  priority share the others in strict rotation.
-/

set_option autoImplicit false

namespace Uthreads

variable {s t : Lib} {p r : ThreadPtr} {q rest : List ThreadPtr} {i j : Fin numOfQueue}
  {m n : Machine} {k : ℕ}

/-! ## Ticks in a run -/

/-- The timer expires `k` times, no library call is made, and then a thread's own code runs. -/
def Ticks (k : ℕ) (m n : Machine) : Prop :=
  ∃ es : List Event, (∀ e ∈ es, e = .tick ∨ e = .land) ∧ es.count .tick = k ∧
    Run.exec Machine.step m es = some n ∧ n.ctl = .user

/-- What the proofs need of a machine in a run. -/
structure Sane (m : Machine) : Prop where
  /-- The data fit together. -/
  settled : Settled m.lib ∧ m.lib.Bounded
  /-- A thread's own code runs with the signal unblocked. -/
  unmasked : Unmasked m

theorem Sane.step (h : Sane m) {e : Event} (hst : m.step e = some n) : Sane n :=
  ⟨step_settled h.settled (Machine.step_lib hst), h.unmasked.step h.settled hst⟩

/-- A thread that was chosen goes on with its own code, unless it suspended itself. -/
theorem Machine.step_land (hm : Sane m) (hl : m.ctl = .loading) (hr : m.lib.running = some r)
    (hp : (m.lib.heap r).jmpBuf.place ≠ .suspend) :
    ∃ mask, m.step .land = some ⟨{ m.lib with mask := mask }, .user⟩ := by
  obtain ⟨x, t, hact, he⟩ := act_spec hm.settled.1.wf hr .land (by simp)
  have hen : m.Enabled .land := hl
  rw [Machine.step, if_pos hen, perform, show land m.lib = .ok (x, t) from hact]
  cases he with
  | @landUser r' mask hr' hp' => exact ⟨mask, rfl⟩
  | landSuspend hr' hsusp hf =>
    cases hr.symm.trans hr'
    exact absurd hsusp hp

/-- One tick, and the switch to the thread it chooses. -/
theorem Machine.turn (hm : Sane m) (hu : m.ctl = .user) (hr : m.lib.running = some r)
    (hf : m.lib.First i p rest) (hp : (m.lib.heap p).jmpBuf.place ≠ .suspend) :
    ∃ n, Run.exec Machine.step m [.tick, .land] = some n ∧ n.ctl = .user ∧
      Turned r p i rest m.lib n.lib := by
  have hen : m.Enabled .tick := ⟨hu, hm.unmasked.user hu⟩
  obtain ⟨t, htick, ht⟩ := timeHandler_turned hm.settled.1.wf hr hf
  have hst : m.step .tick = some ⟨t, .loading⟩ := by
    rw [Machine.step, if_pos hen, perform, htick]
    rfl
  have hplace : (t.heap p).jmpBuf.place ≠ .suspend := fun h ↦ hp (ht.place p h).2
  obtain ⟨mask, hland⟩ := Machine.step_land (hm.step hst) rfl ht.running hplace
  refine ⟨⟨{ t with mask := mask }, .user⟩, ?_, rfl,
    ht.running, ht.ready, ht.pr_eq, ht.quantom, ht.place⟩
  rw [Run.exec, hst, Option.bind_some, Run.exec, hland]
  rfl

/-! ## Two ticks -/

/-- `r` is running, it is the only thread of its priority that is not blocked, there is none of a
higher one, and the threads of the next priority are ready in the line `q`. -/
structure Alone (r : ThreadPtr) (j : Fin numOfQueue) (q : List ThreadPtr) (m : Machine) : Prop where
  ctl : m.ctl = .user
  running : m.lib.running = some r
  ready : m.lib.ready j = q
  /-- No other thread is ready above them. -/
  above : ∀ i < j, m.lib.ready i = []
  /-- The priority of `r`. -/
  high : queueOf (m.lib.heap r).pr < j
  /-- The priority of the line. -/
  low : ∀ p ∈ q, queueOf (m.lib.heap p).pr = j

/-- **Two ticks** give a quantum to the head of the line and one to `r`, and move the head to the
end of the line. -/
theorem Alone.round (h : Alone r j (p :: q) m) (hm : Sane m)
    (hp : (m.lib.heap p).jmpBuf.place ≠ .suspend) :
    ∃ n, Run.exec Machine.step m [.tick, .land, .tick, .land] = some n ∧
      Alone r j (q ++ [p]) n ∧ (∀ i, i ≠ j → n.lib.ready i = m.lib.ready i) ∧
      (∀ x, (n.lib.heap x).quantom = (m.lib.heap x).quantom + (if r = x then 1 else 0) +
        if p = x then 1 else 0) ∧
      ∀ x, (n.lib.heap x).jmpBuf.place = .suspend →
        x ≠ p ∧ (m.lib.heap x).jmpBuf.place = .suspend := by
  have hhigh := h.high
  have hlow := h.low p List.mem_cons_self
  -- the first tick takes `p` out of the line, and queues `r`
  obtain ⟨m₁, hex₁, hu₁, ht₁⟩ := Machine.turn hm h.ctl h.running ⟨h.ready, h.above⟩ hp
  have hm₁ : Sane m₁ := Run.exec_induction (fun _ _ _ hm hst ↦ hm.step hst) hm hex₁
  have hfirst : m₁.lib.First (queueOf (m.lib.heap r).pr) r [] := by
    refine ⟨?_, fun i hi ↦ ?_⟩
    · rw [ht₁.ready, if_neg hhigh.ne, h.above _ hhigh, if_pos rfl, List.nil_append]
    · rw [ht₁.ready, if_neg (hi.trans hhigh).ne, h.above _ (hi.trans hhigh), if_neg hi.ne,
        List.nil_append]
  -- the second one takes `r` again, and queues `p` behind the line
  obtain ⟨n, hex, hu, ht⟩ := Machine.turn hm₁ hu₁ ht₁.running hfirst
    fun hsusp ↦ (ht₁.place r hsusp).1 rfl
  have hready : ∀ i, n.lib.ready i = if i = j then q ++ [p] else m.lib.ready i := by
    intro i
    rw [ht.ready, ht₁.pr_eq, hlow, ht₁.ready]
    by_cases hij : i = j
    · rw [if_neg (hij ▸ hhigh.ne'), if_pos hij, if_neg (hij ▸ hhigh.ne'), if_pos hij, if_pos hij,
        List.append_nil]
    · rw [if_neg hij, if_neg hij, if_neg hij, List.append_nil]
      split
      · rename_i hi
        rw [hi, h.above _ hhigh]
      · exact List.append_nil _
  refine ⟨n, ?_, ⟨hu, ht.running, ?_, fun i hi ↦ ?_, ?_, fun x hx ↦ ?_⟩, fun i hi ↦ ?_,
    fun x ↦ ?_, fun x hx ↦ ?_⟩
  · have hboth : ([.tick, .land, .tick, .land] : List Event) =
        [.tick, .land] ++ [.tick, .land] := rfl
    rw [hboth, Run.exec_append, hex₁, Option.bind_some, hex]
  · rw [hready, if_pos rfl]
  · rw [hready, if_neg hi.ne, h.above i hi]
  · rwa [ht.pr_eq, ht₁.pr_eq]
  · rw [ht.pr_eq, ht₁.pr_eq]
    exact h.low x ((List.perm_append_singleton p q).mem_iff.mp hx)
  · rw [hready, if_neg hi]
  · rw [ht.quantom, ht₁.quantom]
    omega
  · obtain ⟨hxp, hx₁⟩ := ht.place x hx
    exact ⟨hxp, (ht₁.place x hx₁).2⟩

/-- **The run lemma**: as long as nobody in the line who is switched in suspended itself, two ticks
for each round rotate the line and give `r` a quantum. -/
theorem Alone.rounds (k : ℕ) (h : Alone r j q m) (hm : Sane m) (hne : q ≠ [])
    (hq : ∀ p ∈ q.take k, (m.lib.heap p).jmpBuf.place ≠ .suspend) :
    ∃ n, Ticks (2 * k) m n ∧ Alone r j (q.rotate k) n ∧
      (∀ i, i ≠ j → n.lib.ready i = m.lib.ready i) ∧
      ∀ x, (n.lib.heap x).quantom =
        (m.lib.heap x).quantom + (if r = x then k else 0) + RoundRobin.turns k q x := by
  induction k generalizing m q with
  | zero => exact ⟨m, ⟨[], by simp, rfl, rfl, h.ctl⟩, by simpa using h, fun _ _ ↦ rfl, by simp⟩
  | succ k ih =>
    obtain ⟨p, q, rfl⟩ := List.exists_cons_of_ne_nil hne
    obtain ⟨m₁, hex₁, h₁, hready₁, hquantom₁, hplace₁⟩ := h.round hm (hq p (by simp))
    have hm₁ : Sane m₁ := Run.exec_induction (fun _ _ _ hm hst ↦ hm.step hst) hm hex₁
    have hq₁ : ∀ p' ∈ (q ++ [p]).take k, (m₁.lib.heap p').jmpBuf.place ≠ .suspend := by
      intro p' hp' hsusp
      obtain ⟨hne', hsusp⟩ := hplace₁ p' hsusp
      rw [List.take_append] at hp'
      rcases List.mem_append.mp hp' with hp' | hp'
      · exact hq p' (by simp [hp']) hsusp
      · exact hne' (List.mem_singleton.mp (List.mem_of_mem_take hp'))
    obtain ⟨n, ⟨es, hes, hcount, hex, hu⟩, hn, hready, hquantom⟩ := ih h₁ hm₁ (by simp) hq₁
    refine ⟨n, ⟨[.tick, .land, .tick, .land] ++ es, ?_, ?_, ?_, hu⟩, ?_, fun i hi ↦ ?_,
      fun x ↦ ?_⟩
    · simpa using hes
    · rw [List.count_append, hcount, show List.count Event.tick [.tick, .land, .tick, .land] = 2
        from rfl, Nat.mul_succ, Nat.add_comm]
    · rw [Run.exec_append, hex₁, Option.bind_some, hex]
    · rwa [List.rotate_cons_succ]
    · rw [hready i hi, hready₁ i hi]
    · rw [hquantom, hquantom₁, RoundRobin.turns_succ]
      split <;> omega

/-! ## Who gets how much -/

/-- `r` has had every second one of `2 * k` quantums, and the threads of the queue `j` the others,
in strict rotation. -/
structure Alternated (k : ℕ) (r : ThreadPtr) (j : Fin numOfQueue) (s t : Lib) : Prop where
  /-- `r` is running again. -/
  running : t.running = some r
  /-- The queue is rotated. -/
  line : t.ready j = (s.ready j).rotate k
  /-- The other queues are the same. -/
  others : ∀ i, i ≠ j → t.ready i = s.ready i
  half : (t.heap r).quantom = (s.heap r).quantom + k
  /-- No thread of the queue has gained two quantums more than another. -/
  fair : ∀ p ∈ s.ready j, ∀ p' ∈ s.ready j,
    (t.heap p).quantom + (s.heap p').quantom ≤ (t.heap p').quantom + (s.heap p).quantom + 1
  /-- The rest has had none. -/
  rest : ∀ p, p ≠ r → p ∉ s.ready j → (t.heap p).quantom = (s.heap p).quantom

/-- **A running thread that is alone in its priority, with none above it, has every second
quantum**, from any state that can be reached, and the next priority shares the others. -/
theorem alternates_of_alone {z : ℤ} {s₀ : Lib} {es : List Event}
    (h0 : uthreadInit Lib.fresh z = (success, s₀))
    (h : Run.exec Machine.step (.start s₀) es = some m) (hu : m.ctl = .user)
    (hr : m.lib.running = some r) (hhigh : queueOf (m.lib.heap r).pr < j)
    (habove : ∀ i < j, m.lib.ready i = []) (hne : m.lib.ready j ≠ []) (k : ℕ)
    (hkeen : ∀ p ∈ (m.lib.ready j).take k, (m.lib.heap p).jmpBuf.place ≠ .suspend) :
    ∃ n, Ticks (2 * k) m n ∧ Alternated k r j m.lib n.lib := by
  obtain ⟨hset, -, hun⟩ := exec_ids h0 h
  have hm : Sane m := ⟨hset, hun⟩
  have hwf := hset.1.wf
  have halone : Alone r j (m.lib.ready j) m :=
    ⟨hu, hr, rfl, habove, hhigh, fun p hp ↦ (hwf.ready j p hp).2⟩
  have hnot : r ∉ m.lib.ready j := (hwf.running_alone hr).1 j
  obtain ⟨n, hn, hline, hothers, hquantom⟩ := halone.rounds k hm hne hkeen
  have hgain : ∀ p, p ≠ r → (n.lib.heap p).quantom =
      (m.lib.heap p).quantom + RoundRobin.turns k (m.lib.ready j) p := by
    intro p hp
    rw [hquantom, if_neg (Ne.symm hp), Nat.add_zero]
  refine ⟨n, hn, hline.running, hline.ready, hothers, ?_, fun p hp p' hp' ↦ ?_,
    fun p hp hpq ↦ ?_⟩
  · rw [hquantom, if_pos rfl, RoundRobin.turns_of_notMem k hnot, Nat.add_zero]
  · have hle := RoundRobin.turns_le k (hwf.nodup_ready j) hp hp'
    rw [hgain p fun hpr ↦ hnot (hpr ▸ hp), hgain p' fun hpr ↦ hnot (hpr ▸ hp')]
    omega
  · rw [hgain p hp, RoundRobin.turns_of_notMem k hpq, Nat.add_zero]

/-- The main thread, which is `ORANGE`, makes a `RED` and an `ORANGE` thread and is preempted. -/
def redEvents : List Event := [.call (.spawn .red), .call (.spawn .orange), .tick, .land]

theorem alternates_of_alone_sample :
    ∃ m n, Run.exec Machine.step (.start (uthreadInit Lib.fresh 1).2) redEvents = some m ∧
      Ticks 4 m n ∧ Alternated 2 1 orangeQ m.lib n.lib := by
  obtain ⟨m, hm, h⟩ : ∃ m, Run.exec Machine.step (.start (uthreadInit Lib.fresh 1).2)
      redEvents = some m ∧ decide (m.ctl = .user ∧ m.lib.running = some 1 ∧
        queueOf (m.lib.heap 1).pr < orangeQ ∧ (∀ i < orangeQ, m.lib.ready i = []) ∧
        m.lib.ready orangeQ = [2, 0] ∧ (m.lib.heap 2).jmpBuf.place ≠ .suspend ∧
        (m.lib.heap 0).jmpBuf.place ≠ .suspend) = true := by
    rw [← Option.map_eq_some_iff]
    decide
  obtain ⟨hu, hr, hhigh, habove, hready, h2, h0⟩ := of_decide_eq_true h
  obtain ⟨n, hn, halt⟩ := alternates_of_alone (z := 1) rfl hm hu hr hhigh habove
    (by simp [hready]) 2 (by simp [hready, h2, h0])
  exact ⟨m, n, hm, hn, halt⟩

end Uthreads
