import OsExercises.ForMathlib.RoundRobin
import OsExercises.Uthreads.Quantums

/-!
# Sharing the processor

When all threads that are not blocked have one priority, there is one ready queue, and a tick takes
its head and appends the former running thread.  So the running thread and the queue behind it form
a line that is rotated by one with each tick, also when nobody else is ready.

* `ticks` is the timer's handler, as often as the timer expires.
* `Turned` is what one tick does to the queues when a thread is ready.
* `Line` is a line of threads of one priority, and `Line.rotate` its rotation over any number of
  ticks.
* `rotates`: in every state that can be reached, the threads of one priority take turns.
-/

set_option autoImplicit false

namespace Uthreads

variable {s t : Lib} {p r : ThreadPtr} {q rest : List ThreadPtr} {pr : Priority} {k : ℕ}
  {i : Fin numOfQueue}

/-! ## Ticks -/

/-- The timer expires `k` times.  In between no library call is made, and the thread that was
switched in goes on with the signal unblocked. -/
def ticks : ℕ → Lib → Except Fault Lib
  | 0, s => .ok s
  | k + 1, s => do
    let (_, t) ← timeHandler s.sigUnblock
    ticks k t

theorem ticks_succ {x : Exit} (h : timeHandler s.sigUnblock = .ok (x, t)) :
    ticks (k + 1) s = ticks k t := by
  rw [ticks, h]
  rfl

/-- What a tick does to the queues and the threads when the choice falls on `p`. -/
structure Turned (r p : ThreadPtr) (i : Fin numOfQueue) (rest : List ThreadPtr) (s t : Lib) :
    Prop where
  running : t.running = some p
  /-- `p` has left its queue, and `r` is at the end of its own one. -/
  ready : ∀ j, t.ready j =
    (if j = i then rest else s.ready j) ++ if j = queueOf (s.heap r).pr then [r] else []
  pr_eq : ∀ x, (t.heap x).pr = (s.heap x).pr
  quantom : ∀ x, (t.heap x).quantom = (s.heap x).quantom + if p = x then 1 else 0
  /-- `r` was saved in the handler. -/
  place : ∀ x, (t.heap x).jmpBuf.place = .suspend →
    x ≠ r ∧ (s.heap x).jmpBuf.place = .suspend

@[simp] theorem saveBuf_pr (s : Lib) (r q : ThreadPtr) (place : SavePoint) :
    ((s.saveBuf r place).heap q).pr = (s.heap q).pr := by
  by_cases hq : q = r
  · simp [hq]
  · simp [hq]

/-- **A tick takes the first ready thread, and queues the former running one after that.** -/
theorem timeHandler_turned (h : Wf [] s) (hr : s.running = some r) (hf : s.First i p rest) :
    ∃ t, timeHandler s = .ok (.jump, t) ∧ Turned r p i rest s t := by
  refine ⟨_, timeHandler_of_first h hr hf, rfl, fun j ↦ ?_, fun x ↦ ?_, fun x ↦ ?_,
    fun x hx ↦ ?_⟩
  · rw [pushReady_ready, giveWay_ready, giveWay_ready]
    split
    · rename_i hj
      rw [hj]
      rfl
    · exact (List.append_nil _).symm
  · rw [pushReady_heap, Lib.giveWay, (startQuantum_heap _ _ _).2.1, setReady_heap,
      (setState_heap _ _ _ _).2.1, saveBuf_pr, sigBlock_heap]
  · simp
  · rw [pushReady_heap, giveWay_jmpBuf, setState_jmpBuf] at hx
    by_cases hxr : x = r
    · simp [hxr] at hx
    · exact ⟨hxr, by simpa [hxr] using hx⟩

/-! ## Taking turns -/

/-- All threads that are not blocked have this priority. -/
def Lib.Uniform (s : Lib) (pr : Priority) : Prop :=
  ∀ e ∈ s.threads.toList, e.2 ∉ s.blocked → (s.heap e.2).pr = pr

instance (s : Lib) (pr : Priority) : Decidable (s.Uniform pr) :=
  inferInstanceAs (Decidable (∀ e ∈ s.threads.toList, e.2 ∉ s.blocked → (s.heap e.2).pr = pr))

/-- The threads of the line have taken `k` turns in strict rotation. -/
structure Rotated (k : ℕ) (pr : Priority) (l : List ThreadPtr) (s t : Lib) : Prop where
  /-- The running thread is the one at position `k`, going round. -/
  running : t.running = l[k % l.length]?
  /-- The ready queue is the rest of the line behind it. -/
  ready : t.ready (queueOf pr) = (l.rotate k).tail
  /-- No other thread is ready. -/
  others : ∀ i, i ≠ queueOf pr → t.ready i = []
  /-- No thread has gained two quantums more than another. -/
  fair : ∀ p ∈ l, ∀ p' ∈ l,
    (t.heap p).quantom + (s.heap p').quantom ≤ (t.heap p').quantom + (s.heap p).quantom + 1

/-! ## The line -/

/-- The running thread and the only ready queue make up the line `l`. -/
structure Line (pr : Priority) (l : List ThreadPtr) (s : Lib) : Prop where
  /-- The head of the line is running. -/
  running : s.running = l.head?
  /-- The rest is ready. -/
  ready : s.ready (queueOf pr) = l.tail
  /-- No other thread is ready. -/
  others : ∀ i, i ≠ queueOf pr → s.ready i = []
  /-- They have one priority. -/
  pr_eq : ∀ p ∈ l, (s.heap p).pr = pr

theorem Line.sigUnblock (h : Line pr q s) : Line pr q s.sigUnblock :=
  ⟨h.running, h.ready, h.others, h.pr_eq⟩

theorem Wf.nodup_ready (h : Wf [] s) (i : Fin numOfQueue) : (s.ready i).Nodup := by
  refine List.nodup_iff_count_le_one.mpr fun p ↦ ?_
  have hocc := h.occ_le p
  have hcount := count_le_readyCount s i p
  rw [occ] at hocc
  change (s.ready i).count p ≤ _ at hcount
  omega

theorem Line.nodup (h : Line pr (r :: q) s) (hwf : Wf [] s) : (r :: q).Nodup := by
  have hready : s.ready (queueOf pr) = q := h.ready
  refine List.nodup_cons.mpr ⟨fun hr ↦ ?_, hready ▸ hwf.nodup_ready _⟩
  exact (hwf.running_alone h.running).1 (queueOf pr) (by rwa [hready])

theorem Line.first (h : Line pr (r :: p :: q) s) : s.First (queueOf pr) p q :=
  ⟨h.ready, fun j hj ↦ h.others j hj.ne⟩

theorem Line.idle (h : Line pr [r] s) : s.Idle := by
  intro i
  by_cases hi : i = queueOf pr
  · rw [hi, h.ready]
    rfl
  · exact h.others i hi

/-- **The step lemma**: a tick moves the head of the line to its end, and the new head has the
quantum. -/
theorem Line.tick (h : Line pr (r :: q) s) (hwf : Wf [] s) :
    ∃ t, timeHandler s = .ok (.jump, t) ∧ Line pr (q ++ [r]) t ∧
      ∀ p, (t.heap p).quantom =
        (s.heap p).quantom + if (q ++ [r]).head? = some p then 1 else 0 := by
  have hr : s.running = some r := h.running
  have hpr : ∀ p ∈ q ++ [r], (s.heap p).pr = pr :=
    fun p hp ↦ h.pr_eq p ((List.perm_append_singleton r q).mem_iff.mp hp)
  match q, h, hpr with
  | [], h, hpr =>
    refine ⟨_, timeHandler_of_idle hwf hr h.idle, ⟨hr, h.ready, h.others, fun p hp ↦ ?_⟩,
      fun p ↦ ?_⟩
    · rw [(startQuantum_heap _ _ _).2.1, (setState_heap _ _ _ _).2.1, saveBuf_pr]
      exact hpr p hp
    · simp
  | p :: q, h, hpr =>
    obtain ⟨t, hst, ht⟩ := timeHandler_turned hwf hr h.first
    refine ⟨t, hst, ⟨ht.running, ?_, fun i hi ↦ ?_, fun x hx ↦ ?_⟩, fun x ↦ ?_⟩
    · rw [ht.ready, h.pr_eq r List.mem_cons_self, if_pos rfl, if_pos rfl]
      rfl
    · rw [ht.ready, h.pr_eq r List.mem_cons_self, if_neg hi, if_neg hi, h.others i hi]
      rfl
    · rw [ht.pr_eq, hpr x hx]
    · simp [ht.quantom]

/-- **The run lemma**: `k` ticks rotate the line by `k`, and its threads take turns. -/
theorem Line.rotate (k : ℕ) (h : Line pr (r :: q) s) (hwf : Wf [] s) :
    ∃ t, ticks k s = .ok t ∧ Line pr ((r :: q).rotate k) t ∧
      ∀ p, (t.heap p).quantom = (s.heap p).quantom + RoundRobin.turns k (q ++ [r]) p := by
  induction k generalizing s r q with
  | zero => exact ⟨s, rfl, by simpa using h, by simp⟩
  | succ k ih =>
    have hwf' : Wf [] s.sigUnblock := hwf.congr
    obtain ⟨t, hst, ht, hquantom⟩ := h.sigUnblock.tick hwf'
    obtain ⟨x, u, hact, he⟩ := act_spec hwf' (show s.sigUnblock.running = some r from h.running)
      .tick (by simp)
    cases (show timeHandler s.sigUnblock = .ok (x, u) from hact).symm.trans hst
    obtain ⟨p, q₁, hq₁⟩ := List.exists_cons_of_ne_nil (show q ++ [r] ≠ [] by simp)
    rw [hq₁] at ht hquantom
    obtain ⟨v, hv, hline, hturns⟩ := ih ht (he.wf hwf')
    refine ⟨v, by rw [ticks_succ hst, hv], ?_, fun x ↦ ?_⟩
    · rwa [List.rotate_cons_succ, hq₁]
    · rw [hturns, hquantom, hq₁, RoundRobin.turns_succ, List.head?_cons, add_assoc,
        add_comm (RoundRobin.turns k _ x)]
      simp

/-- Where the line is rotated, the threads share the processor. -/
theorem Line.rotated (h : Line pr (r :: q) s) (hwf : Wf [] s)
    (ht : Line pr ((r :: q).rotate k) t)
    (hturns : ∀ p, (t.heap p).quantom =
      (s.heap p).quantom + RoundRobin.turns k (q ++ [r]) p) :
    Rotated k pr (r :: q) s t := by
  refine ⟨?_, ht.ready, ht.others, fun p hp p' hp' ↦ ?_⟩
  · rw [ht.running, ← List.rotate_mod, List.head?_rotate (Nat.mod_lt _ (by simp))]
  · have hperm := List.perm_append_singleton r q
    have hle := RoundRobin.turns_le k (hperm.nodup_iff.mpr (h.nodup hwf))
      (hperm.mem_iff.mpr hp) (hperm.mem_iff.mpr hp')
    rw [hturns, hturns]
    omega

/-! ## Strict rotation -/

theorem Wf.line (h : Wf [] s) (hpr : s.Uniform pr) (hr : s.running = some r) :
    Line pr (r :: s.ready (queueOf pr)) s := by
  have hlive : ∀ p, s.Live p → p ∉ s.blocked → (s.heap p).pr = pr := fun p hp hb ↦
    hpr _ (Std.TreeMap.mem_toList_iff_getElem?_eq_some.mpr hp) hb
  have hready : ∀ {i p}, p ∈ s.ready i → (s.heap p).pr = pr := fun {i p} hp ↦
    hlive p (h.live_of_ready hp) ((h.takeReady ((h.ready i p hp).2 ▸ hp)).not_placed
      List.mem_cons_self).2.2
  refine ⟨hr, rfl, fun i hi ↦ ?_, fun p hp ↦ ?_⟩
  · refine List.eq_nil_iff_forall_not_mem.mpr fun p hp ↦ hi ?_
    rw [← (h.ready i p hp).2, hready hp]
  · rcases List.mem_cons.mp hp with rfl | hp
    · exact hlive p (h.live_of_running hr) (h.running_alone hr).2
    · exact hready hp

/-- **Equal-priority threads share the processor in strict rotation**: in every state that can be
reached in which all threads that are not blocked have one priority, any number of ticks rotates
the line of the running thread and the ready ones. -/
theorem rotates {z : ℤ} {s₀ : Lib} {es : List Event}
    (h0 : uthreadInit Lib.fresh z = (success, s₀)) (h : Run.exec step s₀ es = some s)
    (hpr : s.Uniform pr) (hr : s.running = some r) (k : ℕ) :
    ∃ t, ticks k s = .ok t ∧ Rotated k pr (r :: s.ready (queueOf pr)) s t := by
  have hwf := (exec_settled h0 h).1.wf
  have hline := hwf.line hpr hr
  obtain ⟨t, ht, hline', hturns⟩ := hline.rotate k hwf
  exact ⟨t, ht, hline.rotated hwf hline' hturns⟩

/-- Of three `ORANGE` threads, one is blocked and one was resumed. -/
def orangeEvents : List Event :=
  [.call (.spawn .orange), .call (.spawn .orange), .call (.spawn .orange), .call (.suspend 2),
    .tick, .land, .call (.suspend 1), .land, .call (.resume 1)]

theorem rotates_sample :
    ∃ s t, Run.exec step (uthreadInit Lib.fresh 1).2 orangeEvents = some s ∧
      ticks 4 s = .ok t ∧ Rotated 4 .orange [3, 0, 1] s t := by
  obtain ⟨s, hs, h⟩ : ∃ s, Run.exec step (uthreadInit Lib.fresh 1).2 orangeEvents = some s ∧
      (decide (s.Uniform .orange), s.running, s.ready (queueOf .orange)) =
        (true, some 3, [0, 1]) := by
    rw [← Option.map_eq_some_iff]
    decide
  simp only [Prod.mk.injEq, decide_eq_true_eq] at h
  obtain ⟨hpr, hr, hready⟩ := h
  obtain ⟨t, ht, hrot⟩ := rotates (z := 1) rfl hs hpr hr 4
  exact ⟨s, t, hs, ht, hready ▸ hrot⟩

end Uthreads
