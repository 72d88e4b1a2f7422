import OsExercises.Uthreads.Order

/-!
# First come, first served

A `Timeline` is a run of the library with a clock, which notes for every thread when it last became
ready.  No function of the library looks at the clock; it is there to say what the order of a ready
queue means.

* `InOrder` says that the queues are ordered by the time their threads became ready, and
  `Timely.step` that every event keeps them so.
* `Ahead.step` follows a thread that waits in front of another one of its priority, and
  `exec_inOrder` puts the two together.
-/

set_option autoImplicit false

namespace Uthreads

variable {s t : Lib} {p q r : ThreadPtr} {i j : Fin numOfQueue} {x : Exit} {e : Event}

/-! ## The clock -/

/-- A run of the library with a clock that counts the events, and the time at which each thread last
became ready. -/
structure Timeline where
  /-- The library's data. -/
  lib : Lib
  /-- The number of events so far. -/
  now : ℕ
  /-- When a thread last became ready. -/
  since : ThreadPtr → ℕ

/-- The beginning of a run. -/
def Timeline.start (s : Lib) : Timeline := ⟨s, 0, fun _ ↦ 0⟩

/-- One event. -/
def Timeline.step (c : Timeline) (e : Event) : Option Timeline :=
  (Uthreads.step c.lib e).map fun t ↦
    { lib := t
      now := c.now + 1
      since := match enters c.lib e with
        | some p => Function.update c.since p c.now
        | none => c.since }

variable {c d : Timeline}

/-- Each ready queue is ordered by the time its threads last became ready. -/
def Timeline.InOrder (c : Timeline) : Prop :=
  ∀ j, (c.lib.ready j).Pairwise fun p q ↦ c.since p < c.since q

/-- The invariant of a run: the data fit together, the queues are in order, and no thread became
ready in the future. -/
structure Timely (c : Timeline) : Prop where
  /-- The data fit together. -/
  settled : Settled c.lib ∧ c.lib.Bounded
  /-- The queues are in order. -/
  inOrder : c.InOrder
  /-- The ready threads became ready in the past. -/
  past : ∀ j, ∀ p ∈ c.lib.ready j, c.since p < c.now

/-- **What one event does**: a call fails its checks and only time goes on, or the act has its
effect and the thread it makes ready gets the present time. -/
theorem Timeline.step_cases (h : Settled c.lib ∧ c.lib.Bounded) (hst : c.step e = some d) :
    d.now = c.now + 1 ∧ ((d.lib = c.lib ∧ d.since = c.since) ∨
      ∃ x, Effect c.lib e.toAct x d.lib ∧
        (∀ p, e.toAct.enters c.lib = some p → d.since p = c.now) ∧
        ∀ p, e.toAct.enters c.lib ≠ some p → d.since p = c.since p) := by
  obtain ⟨t, ht, rfl⟩ := Option.map_eq_some_iff.mp hst
  refine ⟨rfl, ?_⟩
  rcases step_passes h ht with ⟨hp, rfl⟩ | ⟨hp, x, he⟩
  · exact .inl ⟨rfl, by simp [enters, hp]⟩
  · refine .inr ⟨x, he, fun p hent ↦ ?_, fun p hent ↦ ?_⟩
    · simp [enters, hp, hent]
    · simp only [enters, hp, if_true]
      cases hq : e.toAct.enters c.lib with
      | none => rfl
      | some q =>
        refine Function.update_of_ne ?_ _ _
        rintro rfl
        exact hent hq

/-- **The step lemma.** -/
theorem Timely.step (h : Timely c) (hst : c.step e = some d) : Timely d := by
  obtain ⟨t, ht, hd⟩ := Option.map_eq_some_iff.mp hst
  have hset := step_settled h.settled ht
  rw [show t = d.lib by rw [← hd]] at hset
  obtain ⟨hnow, ⟨hlib, hsince⟩ | ⟨x, he, hnew, hold⟩⟩ := Timeline.step_cases h.settled hst
  · refine ⟨hset, fun j ↦ ?_, fun j p hp ↦ ?_⟩
    · rw [hlib, hsince]
      exact h.inOrder j
    · rw [hlib] at hp
      rw [hsince, hnow]
      exact (h.past j p hp).trans (Nat.lt_succ_self _)
  · have hkeep : ∀ j, ∀ p ∈ c.lib.ready j, d.since p = c.since p := fun j p hp ↦
      hold p fun hent ↦ he.enters_fresh h.settled.1.wf hent j hp
    have hsub : ∀ j (l : List ThreadPtr), l.Sublist (c.lib.ready j) →
        l.Pairwise (fun p q ↦ d.since p < d.since q) ∧ ∀ p ∈ l, d.since p < c.now :=
      fun j l hl ↦ by
        refine ⟨((h.inOrder j).sublist hl).imp_of_mem fun hp hq hlt ↦ ?_, fun p hp ↦ ?_⟩
        · rwa [hkeep j _ (hl.subset hp), hkeep j _ (hl.subset hq)]
        · rw [hkeep j p (hl.subset hp)]
          exact h.past j p (hl.subset hp)
    refine ⟨hset, fun j ↦ ?_, fun j p hp ↦ ?_⟩
    · obtain ⟨l, hl, heq | ⟨p, hp, heq⟩⟩ := he.ready_eq j
      · rw [heq]
        exact (hsub j l hl).1
      · rw [heq]
        refine List.pairwise_append.mpr ⟨(hsub j l hl).1, List.pairwise_singleton _ _, ?_⟩
        intro q hq r hr
        rw [List.mem_singleton.mp hr, hnew p hp]
        exact (hsub j l hl).2 q hq
    · rw [hnow]
      rcases he.mem_ready hp with hp' | hp'
      · rw [hkeep j p hp']
        exact (h.past j p hp').trans (Nat.lt_succ_self _)
      · rw [hnew p hp']
        exact Nat.lt_succ_self _

/-! ## Waiting in front of another thread -/

/-- `a` waits in queue `i`, and `b`, which has the same priority, is not before it. -/
structure Ahead (i : Fin numOfQueue) (a b : ThreadPtr) (c : Timeline) : Prop where
  /-- The invariant of the run. -/
  timely : Timely c
  /-- `a` is ready. -/
  ready : a ∈ c.lib.ready i
  /-- `b` is a thread that was made. -/
  lt_brk : b < c.lib.brk
  /-- `b` has the priority of the queue. -/
  queue : queueOf (c.lib.heap b).pr = i
  /-- `b` is not running. -/
  waits : c.lib.running ≠ some b
  /-- If `b` is ready, it became ready later. -/
  later : b ∈ c.lib.ready i → c.since a < c.since b

/-- **The step lemma.**  Unless `a` is taken out of its queue, it is switched in or stays ahead. -/
theorem Ahead.step {a b : ThreadPtr} (h : Ahead i a b c) (hst : c.step e = some d)
    (hkeep : ¬Removes c.lib a e) : d.lib.running = some a ∨ Ahead i a b d := by
  have ht := h.timely.step hst
  have hwf := h.timely.settled.1.wf
  obtain ⟨-, ⟨hlib, hsince⟩ | ⟨x, he, hnew, hold⟩⟩ := Timeline.step_cases h.timely.settled hst
  · exact .inr ⟨ht, by rw [hlib]; exact h.ready, by rw [hlib]; exact h.lt_brk,
      by rw [hlib]; exact h.queue, by rw [hlib]; exact h.waits,
      by rw [hlib, hsince]; exact h.later⟩
  · rcases he.stays h.ready with hready | hrun | ⟨tid, hact, htid⟩
    · have hafresh : e.toAct.enters c.lib ≠ some a := fun hent ↦
        he.enters_fresh hwf hent i h.ready
      refine .inr ⟨ht, hready, h.lt_brk.trans_le he.brk_le, ?_, fun hb ↦ ?_, fun hb ↦ ?_⟩
      · rw [he.pr_eq h.lt_brk, h.queue]
      · by_cases hx : x = .jump
        case neg => exact h.waits (he.running_eq hx ▸ hb)
        subst hx
        rcases he.chosen with ⟨k, p, rest, hf, hrun⟩ | ⟨-, -, hrun⟩
        · -- `b` would be the head of the queue in which `a` is
          cases hrun.symm.trans hb
          obtain rfl : k = i := by rw [← h.queue, (hwf.ready k b hf.mem).2]
          have hlt := h.later hf.mem
          have hord := h.timely.inOrder k
          have hmem := h.ready
          rw [hf.1] at hord hmem
          rcases List.mem_cons.mp hmem with rfl | hmem
          · exact lt_irrefl _ hlt
          · exact lt_asymm hlt (List.rel_of_pairwise_cons hord hmem)
        · exact h.waits (hrun ▸ hb)
      · rw [hold a hafresh]
        by_cases hent : e.toAct.enters c.lib = some b
        · rw [hnew b hent]
          exact h.timely.past i a h.ready
        · rw [hold b hent]
          exact h.later ((he.mem_ready hb).resolve_right hent)
    · exact .inl hrun
    · refine absurd ⟨tid, ?_, htid⟩ hkeep
      cases e with
      | call f => exact hact.imp (fun h ↦ by cases h; rfl) fun h ↦ by cases h; rfl
      | _ => rcases hact with hact | hact <;> cases hact

/-- **The run lemma.** -/
theorem Ahead.exec {a b : ThreadPtr} {es : List Event} (h : Ahead i a b c)
    (hkeep : Run.Meets Timeline.step (fun c e ↦ ¬Removes c.lib a e) c es)
    (hst : Run.exec Timeline.step c es = some d) (hb : d.lib.running = some b) :
    ∃ fs u, fs.IsPrefix es ∧ Run.exec Timeline.step c fs = some u ∧ u.lib.running = some a := by
  induction es generalizing c with
  | nil =>
    cases hst
    exact absurd hb h.waits
  | cons e es ih =>
    obtain ⟨v, hv, hvd⟩ := Run.exec_cons_eq_some.mp hst
    obtain ⟨hke, hkes⟩ := hkeep v hv
    rcases h.step hv hke with hrun | hahead
    · exact ⟨[e], v, List.cons_prefix_cons.mpr ⟨rfl, List.nil_prefix⟩,
        Run.exec_cons_eq_some.mpr ⟨v, hv, rfl⟩, hrun⟩
    · obtain ⟨fs, u, hfs, hu, hrun⟩ := ih hahead hkes hvd
      exact ⟨e :: fs, u, List.cons_prefix_cons.mpr ⟨rfl, hfs⟩,
        Run.exec_cons_eq_some.mpr ⟨v, hv, hu⟩, hrun⟩

/-! ## Runs -/

/-- The queues are in order in every run. -/
theorem exec_timely {q : ℤ} {s₀ : Lib} {es : List Event}
    (h0 : uthreadInit Lib.fresh q = (success, s₀))
    (h : Run.exec Timeline.step (.start s₀) es = some c) : Timely c := by
  have hs := uthreadInit_settled h0
  have hready : ∀ j, s₀.ready j = [] := fun j ↦ by
    rw [uthreadInit] at h0
    split at h0
    · simp [success, fail] at h0
    · rw [← (Prod.mk.inj h0).2]
      rfl
  refine Run.exec_induction (I := Timely) (fun _ _ _ hc hst ↦ hc.step hst) ⟨hs, fun j ↦ ?_,
    fun j p hp ↦ ?_⟩ h
  · rw [show (Timeline.start s₀).lib.ready j = [] from hready j]
    exact .nil
  · rw [show (Timeline.start s₀).lib.ready j = [] from hready j] at hp
    cases hp

/-- **First come, first served.**  The ready queues are always ordered by the time their threads
became ready.  When `a` and `b` have the same priority and `a` became ready first, `b` is not
switched in before `a`, as long as nobody suspends or terminates `a`. -/
theorem exec_inOrder {q : ℤ} {s₀ : Lib} {es : List Event}
    (h0 : uthreadInit Lib.fresh q = (success, s₀))
    (h : Run.exec Timeline.step (.start s₀) es = some c) :
    c.InOrder ∧ ∀ (a b : ThreadPtr) (i j : Fin numOfQueue), a ∈ c.lib.ready i →
      b ∈ c.lib.ready j → (c.lib.heap a).pr = (c.lib.heap b).pr → c.since a < c.since b →
      ∀ fs d, Run.Meets Timeline.step (fun c e ↦ ¬Removes c.lib a e) c fs →
        Run.exec Timeline.step c fs = some d → d.lib.running = some b →
        ∃ gs u, gs.IsPrefix fs ∧ Run.exec Timeline.step c gs = some u ∧
          u.lib.running = some a := by
  have ht := exec_timely h0 h
  have hwf := ht.settled.1.wf
  refine ⟨ht.inOrder, fun a b i j ha hb hpr hlt fs d hkeep hd hrun ↦ ?_⟩
  have hi := (hwf.ready i a ha).2
  have hahead : Ahead i a b c := by
    refine ⟨ht, ha, hwf.lt_brk _ _ (hwf.live_of_ready hb), by rw [← hpr, hi], fun hr ↦ ?_,
      fun _ ↦ hlt⟩
    exact (hwf.running_alone hr).1 j hb
  exact hahead.exec hkeep hd hrun

/-- Two orange threads wait, and then the timer expires twice. -/
theorem exec_twoWaiting :
    ∃ c d, Run.exec Timeline.step (.start (uthreadInit Lib.fresh 1).2)
        [.call (.spawn .orange), .call (.spawn .orange)] = some c ∧
      Run.exec Timeline.step c [.tick, .land, .tick] = some d ∧
      (c.lib.ready orangeQ, decide ((c.lib.heap 1).pr = (c.lib.heap 2).pr),
        decide (c.since 1 < c.since 2), d.lib.running) = ([1, 2], true, true, some 2) := by
  have h : ((Run.exec Timeline.step (.start (uthreadInit Lib.fresh 1).2)
      [.call (.spawn .orange), .call (.spawn .orange)]).bind fun c ↦
        (Run.exec Timeline.step c [.tick, .land, .tick]).map fun d ↦
          (c.lib.ready orangeQ, decide ((c.lib.heap 1).pr = (c.lib.heap 2).pr),
            decide (c.since 1 < c.since 2), d.lib.running)) =
              some ([1, 2], true, true, some 2) := by
    decide
  obtain ⟨c, hc, h⟩ := Option.bind_eq_some_iff.mp h
  obtain ⟨d, hd, h⟩ := Option.map_eq_some_iff.mp h
  exact ⟨c, d, hc, hd, h⟩

theorem exec_inOrder_sample :
    ∃ c, Run.exec Timeline.step (.start (uthreadInit Lib.fresh 1).2)
        [.call (.spawn .orange), .call (.spawn .orange)] = some c ∧
      ∃ gs u, gs.IsPrefix [.tick, .land, .tick] ∧ Run.exec Timeline.step c gs = some u ∧
        u.lib.running = some 1 := by
  obtain ⟨c, d, hc, hd, h⟩ := exec_twoWaiting
  simp only [Prod.mk.injEq, decide_eq_true_eq] at h
  obtain ⟨hready, hpr, hlt, hrun⟩ := h
  have hno : ∀ (c : Timeline) (e : Event), (∀ f, e ≠ .call f) → ¬Removes c.lib 1 e := by
    rintro c e he ⟨tid, h | h, -⟩
    · exact he _ h
    · exact he _ h
  refine ⟨c, hc, (exec_inOrder (q := 1) rfl hc).2 1 2 orangeQ orangeQ (by simp [hready])
    (by simp [hready]) hpr hlt _ d ?_ hd hrun⟩
  exact fun _ _ ↦ ⟨hno _ _ (by simp), fun _ _ ↦ ⟨hno _ _ (by simp),
    fun _ _ ↦ ⟨hno _ _ (by simp), trivial⟩⟩⟩

end Uthreads
