import OsExercises.Uthreads.Rotation

/-!
# Who gets the processor at all

`runThread` takes the head of the first queue that is not empty, and `switchThreads` puts the former
running thread into its queue after that.  So the thread with the highest priority cannot follow
itself, and a ready thread waits in vain exactly when two threads rank above it: while one of them
runs, the other one is ready.

* `Lib.Rival` is a thread that ranks above another one.
* `Ready.tick` says that a tick leaves the rivals of a thread what they are.
* `Effect.wait_lt` is the progress of a thread with at most one rival: every tick that does not
  choose it makes `Lib.wait` smaller.
* `runs_iff` puts the two together, with a bound on the number of ticks.
-/

set_option autoImplicit false

namespace Uthreads

variable {s t : Lib} {p q r u v : ThreadPtr} {i j : Fin numOfQueue} {rest : List ThreadPtr}
  {x : Exit} {k : ℕ}

/-! ## Rivals -/

/-- `q` is not blocked and ranks above `p`. -/
def Lib.Rival (s : Lib) (p q : ThreadPtr) : Prop :=
  s.Live q ∧ q ∉ s.blocked ∧ (s.heap q).pr.Above (s.heap p).pr

instance (s : Lib) (p q : ThreadPtr) : Decidable (s.Rival p q) :=
  inferInstanceAs (Decidable (s.Live q ∧ q ∉ s.blocked ∧
    queueOf (s.heap q).pr < queueOf (s.heap p).pr))

/-- A tick blocks nobody, and makes no thread. -/
theorem Effect.tick_keeps (he : Effect s .tick x t) : t.blocked = s.blocked ∧ t.brk = s.brk := by
  cases he with
  | tickFirst => exact ⟨rfl, rfl⟩
  | tickIdle => exact ⟨rfl, rfl⟩

/-- **A tick leaves the rivals of a thread what they are.** -/
theorem Effect.rival_iff (he : Effect s .tick x t) (h : Wf [] s) (hp : p < s.brk) :
    t.Rival p q ↔ s.Rival p q := by
  obtain ⟨hblocked, hbrk⟩ := he.tick_keeps
  by_cases hq : q < s.brk
  · rw [Lib.Rival, Lib.Rival, he.live_iff h hq, he.pr_eq hq, he.pr_eq hp, hblocked]
    simp
  · have ht : ¬t.Live q := fun ht ↦ hq (hbrk ▸ (he.wf h).lt_brk _ _ ht)
    have hs : ¬s.Live q := fun hs ↦ hq (h.lt_brk _ _ hs)
    exact iff_of_false (fun hr ↦ ht hr.1) fun hr ↦ hs hr.1

/-- A rival is running or ready. -/
theorem Lib.Rival.cases (hq : s.Rival p q) (h : Wf [] s) :
    s.running = some q ∨ q ∈ s.ready (queueOf (s.heap q).pr) :=
  (h.live_cases hq.1).imp_right fun hq' ↦ hq'.resolve_right hq.2.1

/-- A ready thread ranks where its queue is, and is not blocked. -/
theorem Wf.rival_of_ready (h : Wf [] s) (hq : q ∈ s.ready i) (hi : i < queueOf (s.heap p).pr) :
    s.Rival p q := by
  refine ⟨h.live_of_ready hq, fun hb ↦ (h.blocked_alone hb).2 i hq, ?_⟩
  rw [Priority.Above, (h.ready i q hq).2]
  exact hi

/-! ## How long a thread waits -/

/-- What the threads of a queue can cost `p`: one tick each above its own queue, and two in it, as
a rival can come between. -/
def Lib.cost (s : Lib) (p : ThreadPtr) (i : Fin numOfQueue) : ℕ :=
  if i < queueOf (s.heap p).pr then (s.ready i).length
  else if i = queueOf (s.heap p).pr then 2 * (s.ready i).idxOf p
  else 0

/-- A bound on the ticks that choose other threads before one chooses `p`. -/
def Lib.wait (s : Lib) (p : ThreadPtr) : ℕ := ∑ i, s.cost p i

/-- Two sums over the queues that differ in one place. -/
theorem sum_queues {f g : Fin numOfQueue → ℕ} {c : ℕ} (i : Fin numOfQueue)
    (hne : ∀ j, j ≠ i → f j = g j) (heq : f i = g i + c) : ∑ j, f j = ∑ j, g j + c := by
  have hrest : ∑ j ∈ Finset.univ.erase i, f j = ∑ j ∈ Finset.univ.erase i, g j :=
    Finset.sum_congr rfl fun j hj ↦ hne j (Finset.ne_of_mem_erase hj)
  rw [← Finset.add_sum_erase _ f (Finset.mem_univ i),
    ← Finset.add_sum_erase _ g (Finset.mem_univ i), hrest, heq]
  omega

/-- Taking the first thread makes the wait shorter by what it costs. -/
theorem Lib.First.wait_eq (hf : s.First i q rest) (hpr : (t.heap p).pr = (s.heap p).pr)
    (hready : ∀ j, t.ready j = if j = i then rest else s.ready j)
    (hp : p ∈ s.ready (queueOf (s.heap p).pr)) (hq : q ≠ p) :
    s.wait p = t.wait p + if i < queueOf (s.heap p).pr then 1 else 2 := by
  refine sum_queues i (fun j hj ↦ ?_) ?_
  · rw [Lib.cost, Lib.cost, hpr, hready j, if_neg hj]
  · rw [Lib.cost, Lib.cost, hpr, hready i, if_pos rfl, hf.1]
    rcases lt_or_eq_of_le (hf.le hp) with hlt | heq
    · simp only [if_pos hlt, List.length_cons]
    · have hnlt : ¬i < queueOf (s.heap p).pr := heq.not_lt
      simp only [if_neg hnlt, if_pos heq, List.idxOf_cons_ne _ hq]
      omega

/-- A thread that is put into a queue above the one of `p` costs `p` a tick. -/
theorem Lib.wait_pushReady (hp : p ∈ s.ready (queueOf (s.heap p).pr)) :
    (s.pushReady i r).wait p = s.wait p + if i < queueOf (s.heap p).pr then 1 else 0 := by
  refine sum_queues i (fun j hj ↦ ?_) ?_
  · rw [Lib.cost, Lib.cost, pushReady_heap, pushReady_ready, if_neg hj]
  · rw [Lib.cost, Lib.cost, pushReady_heap, pushReady_ready, if_pos rfl]
    by_cases hlt : i < queueOf (s.heap p).pr
    · simp [hlt]
    · by_cases heq : i = queueOf (s.heap p).pr
      · rw [if_neg hlt, if_pos heq, if_neg hlt, if_pos heq, if_neg hlt,
          List.idxOf_append_of_mem (heq ▸ hp), add_zero]
      · simp [hlt, heq]

/-- A queue costs `p` at most two ticks for each of its threads. -/
theorem Lib.cost_le (s : Lib) (p : ThreadPtr) (i : Fin numOfQueue) :
    s.cost p i ≤ 2 * (s.ready i).length := by
  rw [Lib.cost]
  split
  · omega
  · split
    · exact Nat.mul_le_mul_left 2 List.idxOf_le_length
    · exact Nat.zero_le _

/-- A ready thread waits for less than two ticks for each ready thread. -/
theorem Lib.wait_lt (hp : p ∈ s.ready (queueOf (s.heap p).pr)) :
    s.wait p + 1 < 2 * s.readyLength := by
  have hown : s.cost p (queueOf (s.heap p).pr) + 2 ≤
      2 * (s.ready (queueOf (s.heap p).pr)).length := by
    have hidx := List.idxOf_lt_length_of_mem hp
    rw [Lib.cost, if_neg (lt_irrefl _), if_pos rfl]
    omega
  have hrest := Finset.sum_le_sum fun i (_ : i ∈ Finset.univ.erase (queueOf (s.heap p).pr)) ↦
    s.cost_le p i
  have hcost := Finset.add_sum_erase _ (s.cost p) (Finset.mem_univ (queueOf (s.heap p).pr))
  have hlength := Finset.add_sum_erase _ (fun i ↦ 2 * (s.ready i).length)
    (Finset.mem_univ (queueOf (s.heap p).pr))
  rw [Lib.wait, Lib.readyLength, Finset.mul_sum, ← hcost, ← hlength]
  omega

/-- **Every tick chooses a thread that waits, or shortens its wait.**  The running thread that is
put back may be the one rival, and then whoever was chosen costs two ticks. -/
theorem Effect.wait_lt (he : Effect s .tick x t) (h : Wf [] s)
    (hp : p ∈ s.ready (queueOf (s.heap p).pr))
    (hlone : ∀ u v, s.Rival p u → s.Rival p v → u = v) :
    t.running = some p ∨ t.wait p < s.wait p := by
  have hlt : p < s.brk := h.lt_brk _ _ (h.live_of_ready hp)
  have hpr := he.pr_eq hlt
  cases he with
  | @tickFirst r q i rest hr hf =>
    by_cases hq : q = p
    · exact .inl (congrArg some hq)
    · refine .inr ?_
      set u := ((s.sigBlock.saveBuf r (.handler s.mask)).setState r .ready).giveWay i q rest
      have hupr : (u.heap p).pr = (s.heap p).pr := hpr
      have hready : ∀ j, u.ready j = if j = i then rest else s.ready j := fun j ↦ giveWay_ready _
      have hmem : p ∈ u.ready (queueOf (u.heap p).pr) := by
        rw [hupr, hready]
        split
        · rename_i heq
          rw [heq, hf.1] at hp
          exact (List.mem_cons.mp hp).resolve_left (Ne.symm hq)
        · exact hp
      have htake := hf.wait_eq hupr hready hp hq
      rw [Lib.wait_pushReady hmem, hupr]
      by_cases habove : queueOf (s.heap r).pr < queueOf (s.heap p).pr
      · rw [if_pos habove]
        split at htake
        · -- the former running thread is a rival, and so is the one that was ready
          rename_i hi
          have hrival : s.Rival p r :=
            ⟨h.live_of_running hr, (h.running_alone hr).2, habove⟩
          have hqr := hlone q r (h.rival_of_ready hf.mem hi) hrival
          exact absurd (hqr ▸ hf.mem) ((h.running_alone hr).1 i)
        · omega
      · rw [if_neg habove]
        split at htake <;> omega
  | tickIdle hr hidle =>
    rw [hidle] at hp
    cases hp

/-! ## Ticks until a thread runs -/

/-- A thread that is ready, in a state where the data fit together. -/
structure Ready (p : ThreadPtr) (s : Lib) : Prop where
  /-- The data fit together, and some thread is running. -/
  settled : Settled s
  /-- `p` is ready. -/
  ready : p ∈ s.ready (queueOf (s.heap p).pr)

/-- **The step lemma**: a tick chooses a ready thread or keeps it ready, and leaves its rivals what
they are. -/
theorem Ready.tick (h : Ready p s) :
    ∃ t, timeHandler s.sigUnblock = .ok (.jump, t) ∧ Effect s.sigUnblock .tick .jump t ∧
      (t.running = some p ∨ Ready p t) ∧ ∀ q, t.Rival p q ↔ s.Rival p q := by
  have hwf : Wf [] s.sigUnblock := h.settled.wf.congr
  have hset : Settled s.sigUnblock := ⟨hwf, h.settled.running⟩
  have hlt : p < s.sigUnblock.brk := hwf.lt_brk _ _ (h.settled.wf.live_of_ready h.ready)
  obtain ⟨r, hr⟩ := Option.isSome_iff_exists.mp h.settled.running
  obtain ⟨x, t, hact, he⟩ := act_spec hwf (show s.sigUnblock.running = some r from hr) .tick
    (by simp)
  have hx : x = .jump := (he.selects_iff hwf).mp rfl
  subst hx
  refine ⟨t, hact, he, ?_, fun q ↦ he.rival_iff hwf hlt⟩
  rcases he.stays (show p ∈ s.sigUnblock.ready (queueOf (s.heap p).pr) from h.ready) with
    hmem | hrun | ⟨tid, htid | htid, -⟩
  · refine .inr ⟨he.settled hset, ?_⟩
    rwa [he.pr_eq hlt]
  · exact .inl hrun
  · cases htid
  · cases htid

/-- Two rivals cannot both be running. -/
theorem Ready.exists_rival_ready (h : Ready p s) (huv : u ≠ v) (hu : s.Rival p u)
    (hv : s.Rival p v) : ∃ q, s.Rival p q ∧ q ∈ s.ready (queueOf (s.heap q).pr) := by
  rcases hu.cases h.settled.wf with hrun | hmem
  · rcases hv.cases h.settled.wf with hrun' | hmem
    · exact absurd (Option.some.inj (hrun.symm.trans hrun')) huv
    · exact ⟨v, hv, hmem⟩
  · exact ⟨u, hu, hmem⟩

/-- **Two rivals starve a thread**: a tick does not choose it. -/
theorem Effect.running_ne (he : Effect s .tick .jump t) (h : Ready p s) (huv : u ≠ v)
    (hu : s.Rival p u) (hv : s.Rival p v) : t.running ≠ some p := by
  rcases he.chosen with ⟨i, q, rest, hf, hq⟩ | ⟨hidle, -, -⟩
  · rw [hq]
    rintro hqp
    obtain rfl := Option.some.inj hqp
    -- the rival that is ready is ahead of `p`
    obtain ⟨w, hw, hmem⟩ := h.exists_rival_ready huv hu hv
    have hle := hf.le hmem
    have habove : queueOf (s.heap w).pr < queueOf (s.heap q).pr := hw.2.2
    rw [← (h.settled.wf.ready i q hf.mem).2] at hle
    exact absurd habove hle.not_gt
  · exact absurd h.ready (by simp [hidle _])

/-- **The run lemma**: a thread with two rivals does not get the processor. -/
theorem Ready.starves (k : ℕ) (h : Ready p s) (huv : u ≠ v) (hu : s.Rival p u)
    (hv : s.Rival p v) : ∃ t, ticks k s = .ok t ∧ t.running ≠ some p := by
  induction k generalizing s with
  | zero => exact ⟨s, rfl, fun hr ↦ (h.settled.wf.running_alone hr).1 _ h.ready⟩
  | succ k ih =>
    obtain ⟨t, hst, he, hready, hrival⟩ := h.tick
    have h' : Ready p s.sigUnblock := ⟨⟨h.settled.wf.congr, h.settled.running⟩, h.ready⟩
    have hne := he.running_ne h' huv hu hv
    obtain ⟨w, hw, hrun⟩ := ih (hready.resolve_left hne) ((hrival u).mpr hu) ((hrival v).mpr hv)
    exact ⟨w, by rw [ticks_succ hst, hw], hrun⟩

/-- At most one thread ranks above `p`. -/
def Lib.Served (s : Lib) (p : ThreadPtr) : Prop := ∀ u v, s.Rival p u → s.Rival p v → u = v

/-- **The progress of a thread with at most one rival**: it gets the processor after at most as many
ticks as its wait allows. -/
theorem Ready.exists_ticks (N : ℕ) (h : Ready p s) (hs : s.Served p) (hN : s.wait p = N) :
    ∃ k ≤ s.wait p + 1, ∃ t, ticks k s = .ok t ∧ t.running = some p := by
  induction N using Nat.strong_induction_on generalizing s with
  | _ N ih =>
    obtain ⟨t, hst, he, hready, hrival⟩ := h.tick
    by_cases hrun : t.running = some p
    · exact ⟨1, by omega, t, by rw [ticks_succ hst, ticks], hrun⟩
    · have hwait : t.wait p < s.wait p :=
        (he.wait_lt h.settled.wf.congr h.ready hs).resolve_left hrun
      have hs' : t.Served p :=
        fun u v hu hv ↦ hs u v ((hrival u).mp hu) ((hrival v).mp hv)
      obtain ⟨k, hk, w, hw, hrun'⟩ :=
        ih _ (hN ▸ hwait) (hready.resolve_left hrun) hs' rfl
      exact ⟨k + 1, by omega, w, by rw [ticks_succ hst, hw], hrun'⟩

/-! ## The exact condition -/

/-- **Which ready threads get the processor** while no library call is made, from any state that can
be reached: those with at most one rival.  They get it after less than two ticks for each ready
thread, and the others never. -/
theorem runs_iff {z : ℤ} {s₀ : Lib} {es : List Event}
    (h0 : uthreadInit Lib.fresh z = (success, s₀)) (h : Run.exec step s₀ es = some s)
    (hp : p ∈ s.ready (queueOf (s.heap p).pr)) :
    (s.Served p → ∃ k < 2 * s.readyLength, ∃ t, ticks k s = .ok t ∧ t.running = some p) ∧
      (¬s.Served p → ∀ k, ∃ t, ticks k s = .ok t ∧ t.running ≠ some p) := by
  have hready : Ready p s := ⟨(exec_settled h0 h).1, hp⟩
  refine ⟨fun hs ↦ ?_, fun hs k ↦ ?_⟩
  · obtain ⟨k, hk, t, ht, hrun⟩ := hready.exists_ticks _ hs rfl
    have hlt := Lib.wait_lt hp
    exact ⟨k, by omega, t, ht, hrun⟩
  · obtain ⟨u, v, hu, hv, huv⟩ : ∃ u v, s.Rival p u ∧ s.Rival p v ∧ u ≠ v := by
      by_contra hno
      refine hs fun u v hu hv ↦ ?_
      by_contra huv
      exact hno ⟨u, v, hu, hv, huv⟩
    exact hready.starves k huv hu hv

/-- The main thread, which is `ORANGE`, makes a thread of each priority. -/
def crowdEvents : List Event :=
  [.call (.spawn .red), .call (.spawn .orange), .call (.spawn .green)]

theorem runs_iff_sample :
    ∃ s, Run.exec step (uthreadInit Lib.fresh 1).2 crowdEvents = some s ∧
      (∃ k < 6, ∃ t, ticks k s = .ok t ∧ t.running = some 2) ∧
      ∀ k, ∃ t, ticks k s = .ok t ∧ t.running ≠ some 3 := by
  obtain ⟨s, hs, h⟩ : ∃ s, Run.exec step (uthreadInit Lib.fresh 1).2 crowdEvents = some s ∧
      decide (2 ∈ s.ready (queueOf (s.heap 2).pr) ∧ 3 ∈ s.ready (queueOf (s.heap 3).pr) ∧
        (∀ u < s.brk, s.Rival 2 u → u = 1) ∧ s.Rival 3 0 ∧ s.Rival 3 1 ∧
        s.readyLength = 3) = true := by
    rw [← Option.map_eq_some_iff]
    decide
  obtain ⟨h2, h3, hlone, h0, h1, hlength⟩ := of_decide_eq_true h
  have hwf := (exec_settled (q := 1) rfl hs).1.wf
  have hserved : s.Served 2 := fun u v hu hv ↦ by
    rw [hlone u (hwf.lt_brk _ _ hu.1) hu, hlone v (hwf.lt_brk _ _ hv.1) hv]
  have hstarved : ¬s.Served 3 := fun hs ↦ absurd (hs 0 1 h0 h1) (by decide)
  obtain ⟨k, hk, t, ht⟩ := (runs_iff (z := 1) rfl hs h2).1 hserved
  rw [hlength] at hk
  exact ⟨s, hs, ⟨k, hk, t, ht⟩, (runs_iff (z := 1) rfl hs h3).2 hstarved⟩

end Uthreads
