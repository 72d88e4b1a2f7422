import OsExercises.Uthreads.Context

/-!
# Thread ids

`getNextId` takes the least number that is not the id of a live thread.  So the ids stay below the
number of threads there may be, and since a container only holds live threads, the former holder of
an id is gone from all of them when the id is given away again.

A call is made in a thread's own code, where the timer signal is not blocked: `Unmasked` is the
invariant, and it is why `uthread_spawn`, which unblocks the signal before it returns, leaves the
mask as it was.

`exec_spawn` is what a call of `uthread_spawn` does in any state of any run.
-/

set_option autoImplicit false

namespace Uthreads

variable {s t : Lib} {p q r : ThreadPtr} {a : Act} {x : Exit} {e : Event} {m n : Machine}

/-! ## Ids stay small -/

/-- The ids in use are below the number of threads there may be. -/
def Lib.SmallIds (s : Lib) : Prop := ∀ k ∈ s.threads, k < maxThreads

/-- The next id is at most the number of live threads. -/
theorem getNextId_le_size (s : Lib) : getNextId s ≤ s.threads.size := by
  have hle := firstGap_le_add_length 0 s.threads.keys
  rw [Std.TreeMap.length_keys, zero_add] at hle
  rwa [getNextId, getNextIdFrom_eq_firstGap]

theorem Effect.smallIds (he : Effect s a x t) (ha : ∀ c, a = .body c → s.Established c)
    (h : s.SmallIds) : t.SmallIds := by
  intro k hk
  rw [he.threads_eq] at hk
  match a with
  | .tick | .land | .body (.suspend _) | .body (.resume _) => exact h k hk
  | .body (.terminate tid) => exact h k (Std.TreeMap.mem_of_mem_erase hk)
  | .body (.spawn pr) =>
    rcases Std.TreeMap.mem_insertIfNew.mp hk with hnew | hold
    · have hlt : s.threads.size < maxThreads := ha _ rfl
      have hle := getNextId_le_size s
      rw [← Std.compare_eq_iff_eq.mp hnew]
      omega
    · exact h k hold

/-! ## The signal mask in a thread's own code -/

/-- A context that goes on in a thread's own code goes on with the timer signal unblocked. -/
def JmpBuf.Unmasked (b : JmpBuf) : Prop :=
  match b.place with
  | .entry => b.savedMask = false
  | .handler interrupted => interrupted = false
  | .suspend => True

/-- In a thread's own code the timer signal is not blocked. -/
structure Unmasked (m : Machine) : Prop where
  /-- Now. -/
  user : m.ctl = .user → m.lib.mask = false
  /-- After a `loadBuf`. -/
  saved : ∀ p < m.lib.brk, (m.lib.heap p).jmpBuf.Unmasked

/-- Every context that is saved in a thread's own code, or made for a new thread, goes on with the
signal unblocked. -/
theorem Effect.unmasked (he : Effect s a x t) (ha : a = .tick → s.mask = false)
    (h : ∀ p < s.brk, (s.heap p).jmpBuf.Unmasked) : ∀ p < t.brk, (t.heap p).jmpBuf.Unmasked := by
  intro q hq
  cases he with
  | @tickFirst r p i rest hr hf =>
    rw [pushReady_heap, giveWay_jmpBuf, setState_jmpBuf]
    by_cases hqr : q = r
    · rw [hqr, Lib.saveBuf_heap_self]
      exact ha rfl
    · rw [Lib.saveBuf_heap_of_ne _ _ hqr]
      exact h q hq
  | @tickIdle r hr hidle =>
    rw [startQuantum_jmpBuf, setState_jmpBuf]
    by_cases hqr : q = r
    · rw [hqr, Lib.saveBuf_heap_self]
      exact ha rfl
    · rw [Lib.saveBuf_heap_of_ne _ _ hqr]
      exact h q hq
  | @suspendRunning r p i rest tid hr htid hne hf =>
    rw [giveWay_jmpBuf, pushBlocked_heap, setState_jmpBuf]
    by_cases hqr : q = r
    · rw [hqr, Lib.saveBuf_heap_self]
      trivial
    · rw [Lib.saveBuf_heap_of_ne _ _ hqr]
      exact h q hq
  | spawn hr pr =>
    rcases Nat.lt_succ_iff_lt_or_eq.mp hq with hlt | rfl
    · rw [sigUnblock_heap, spawned_heap _ pr hlt]
      exact h q hlt
    · rw [show ((s.sigBlock.spawned pr).sigUnblock).heap s.sigBlock.brk =
        Thread.new (getNextId s.sigBlock) pr .ready from Function.update_self _ _ _]
      rfl
  | landUser => exact h q hq
  | landSuspend => simpa using h q hq
  | terminateRunning => simpa using h q hq
  | terminateReady => exact h q hq
  | terminateBlocked => exact h q hq
  | suspendReady => simpa using h q hq
  | suspendBlocked => exact h q hq
  | resume => simpa using h q hq

/-- A call that returns has unblocked the signal. -/
theorem Effect.mask_of_ret {c : Call} (he : Effect s (.body c) x t) (hx : x ≠ .jump) :
    t.mask = false := by
  cases he <;> first | rfl | exact absurd rfl hx

/-- A context that goes on in a thread's own code restores a mask in which the signal is not
blocked. -/
theorem land_mask (hs : Settled s) (h : ∀ p < s.brk, (s.heap p).jmpBuf.Unmasked)
    (hl : land s = .ok (x, t)) (hx : x ≠ .jump) : t.mask = false := by
  obtain ⟨r, hr⟩ := Option.isSome_iff_exists.mp hs.running
  have hsaved := h r (hs.wf.lt_brk _ _ (hs.wf.live_of_running hr))
  match hp : (s.heap r).jmpBuf.place with
  | .entry =>
    rw [land_of_entry hr hp] at hl
    cases hl
    simpa only [JmpBuf.Unmasked, hp] using hsaved
  | .handler b =>
    rw [land_of_handler hr hp] at hl
    cases hl
    simpa only [JmpBuf.Unmasked, hp] using hsaved
  | .suspend =>
    obtain ⟨i, p, rest, hf⟩ :=
      hs.wf.exists_first hr (hs.wf.tid_ne_main_of_suspend (hs.wf.live_of_running hr) hp)
    rw [land_of_suspend hs.wf hr hp hf] at hl
    cases hl
    exact absurd rfl hx

/-- **The step lemma.**  Whatever the library does, when it is back in a thread's own code the
signal is not blocked. -/
theorem Unmasked.act (h : Unmasked m) (hm : Settled m.lib) (ha : a = .tick → m.lib.mask = false)
    (hact : Uthreads.act m.lib a = .ok (x, t)) (he : Effect m.lib a x t) {ctl : Ctl}
    (hctl : ctl = .user → x ≠ .jump) : Unmasked ⟨t, ctl⟩ := by
  refine ⟨fun hu ↦ ?_, he.unmasked ha h.saved⟩
  have hx := hctl hu
  match a with
  | .tick => cases he <;> exact absurd rfl hx
  | .land => exact land_mask hm h.saved hact hx
  | .body c => exact he.mask_of_ret hx

theorem Unmasked.step (h : Unmasked m) (hm : Settled m.lib ∧ m.lib.Bounded)
    (hst : m.step e = some n) : Unmasked n := by
  rw [Machine.step] at hst
  split at hst
  case isFalse => cases hst
  case isTrue hen =>
    rcases perform_spec hm.1 hm.2 e with ⟨-, u, hu⟩ | ⟨c, rfl, hc, hu⟩ | ⟨hest, x, u, hu, he⟩
    · rw [hu] at hst
      cases hst
    · rw [hu] at hst
      cases hst
      exact ⟨fun _ ↦ h.user hen, h.saved⟩
    · have hact : Uthreads.act m.lib e.toAct = .ok (x, u) := by
        cases e with
        | call c =>
          have hcheck := (check_eq_none_iff hm.2 c).mpr (hest c rfl)
          rwa [perform, call, hcheck] at hu
        | _ => exact hu
      have htick : e.toAct = .tick → m.lib.mask = false := by
        intro ha
        cases e with
        | tick => exact hen.2
        | _ => cases ha
      rw [hu] at hst
      have hne := he.ne_exited
      cases x with
      | exited => exact absurd rfl hne
      | _ =>
        cases hst
        exact h.act hm.1 htick hact he (by simp)

/-! ## Runs -/

/-- The containers: the running thread, the ready queues, and `blocked`. -/
def Lib.Holds (s : Lib) (p : ThreadPtr) : Prop :=
  s.running = some p ∨ (∃ i, p ∈ s.ready i) ∨ p ∈ s.blocked

theorem Wf.live_of_holds (h : Wf [] s) (hp : s.Holds p) : s.Live p := by
  rcases hp with hp | ⟨i, hp⟩ | hp
  · exact h.live_of_running hp
  · exact h.live_of_ready hp
  · exact h.live_of_blocked hp

/-- **The run lemma.** -/
theorem exec_ids {q : ℤ} {s₀ : Lib} {es : List Event}
    (h0 : uthreadInit Lib.fresh q = (success, s₀))
    (h : Run.exec Machine.step (.start s₀) es = some m) :
    (Settled m.lib ∧ m.lib.Bounded) ∧ m.lib.SmallIds ∧ Unmasked m := by
  have hset := uthreadInit_settled h0
  have hs : s₀.threads = (∅ : Std.TreeMap ℤ ThreadPtr).insertIfNew 0 0 ∧ s₀.mask = false ∧
      s₀.brk = 1 ∧ (s₀.heap 0).jmpBuf = ⟨.entry, false⟩ := by
    rw [uthreadInit] at h0
    split at h0
    · simp [success, fail] at h0
    · rw [← (Prod.mk.inj h0).2]
      exact ⟨rfl, rfl, rfl, by simp [Lib.fresh, Thread.new]⟩
  obtain ⟨hthreads, hmask, hbrk, hbuf⟩ := hs
  refine Run.exec_induction
    (I := fun m ↦ (Settled m.lib ∧ m.lib.Bounded) ∧ m.lib.SmallIds ∧ Unmasked m)
    (fun m e n hm hst ↦ ?_) ⟨hset, fun k hk ↦ ?_, fun _ ↦ hmask, fun p hp ↦ ?_⟩ h
  · obtain ⟨hm, hids, hun⟩ := hm
    refine ⟨step_settled hm (Machine.step_lib hst), ?_, hun.step hm hst⟩
    have hlib := Machine.step_lib hst
    rcases step_cases hm.1 hm.2 hlib with ⟨c, -, -, heq⟩ | ⟨hest, x, he⟩
    · rw [heq]
      exact hids
    · refine he.smallIds (fun c hc ↦ hest c ?_) hids
      cases e <;> simp_all [Event.toAct]
  · have hk0 : k = 0 := by
      rw [show (Machine.start s₀).lib.threads = _ from hthreads, Std.TreeMap.mem_insertIfNew,
        Std.compare_eq_iff_eq] at hk
      simpa [eq_comm] using hk
    rw [hk0]
    decide
  · have hp0 : p = 0 := Nat.lt_one_iff.mp (hbrk ▸ hp)
    rw [hp0, show ((Machine.start s₀).lib.heap 0).jmpBuf = _ from hbuf]
    rfl

/-- What `uthread_spawn` adds: the thread with the id `k`, which has had no quantum, at the tail of
the queue of its priority. -/
def Lib.withThread (s : Lib) (k : ℤ) (pr : Priority) : Lib :=
  { s with
    heap := Function.update s.heap s.brk (Thread.new k pr .ready)
    brk := s.brk + 1
    threads := s.threads.insertIfNew k s.brk
    ready := Function.update s.ready (queueOf pr) (s.ready (queueOf pr) ++ [s.brk]) }

/-- **Thread ids are minimal, unique and bounded.**  In a thread's own code a call of
`uthread_spawn` returns the least number that is not the id of a live thread, adds a thread with
that id and changes nothing else, as long as there are fewer threads than there may be; if there are
not it returns `-1` and changes nothing.  All ids are small, they are unique, and a container holds
live threads only, so nothing has the id that is given away. -/
theorem exec_spawn {q : ℤ} {s₀ : Lib} {es : List Event}
    (h0 : uthreadInit Lib.fresh q = (success, s₀))
    (h : Run.exec Machine.step (.start s₀) es = some m) :
    (m.ctl = .user → ∀ pr,
      (m.lib.threads.size < maxThreads → ∃ k, IsLeast {k : ℤ | 0 ≤ k ∧ k ∉ m.lib.threads} k ∧
        (∀ p, m.lib.Holds p → (m.lib.heap p).tid ≠ k) ∧
        call m.lib (.spawn pr) = .ok (.ret k, m.lib.withThread k pr)) ∧
      (m.lib.threads.size = maxThreads → call m.lib (.spawn pr) = .ok (.ret fail, m.lib))) ∧
    m.lib.threads.size ≤ maxThreads ∧ (∀ k ∈ m.lib.threads, 0 ≤ k ∧ k < maxThreads) ∧
    (∀ p p', m.lib.Live p → m.lib.Live p' → (m.lib.heap p).tid = (m.lib.heap p').tid → p = p') ∧
    ∀ p, m.lib.Holds p → m.lib.Live p := by
  obtain ⟨⟨hset, hbound⟩, hids, hun⟩ := exec_ids h0 h
  have hwf := hset.wf
  obtain ⟨r, hr⟩ := Option.isSome_iff_exists.mp hset.running
  refine ⟨fun hu pr ↦ ⟨fun hlt ↦ ?_, fun hfull ↦ ?_⟩, hbound, fun k hk ↦ ⟨?_, hids k hk⟩,
    fun p p' hp hp' heq ↦ ?_, fun p hp ↦ hwf.live_of_holds hp⟩
  · have hleast := hwf.isLeast_getNextId
    refine ⟨getNextId m.lib, hleast, fun p hp htid ↦ ?_, ?_⟩
    · have hlive := hwf.live_of_holds hp
      rw [Lib.Live, htid] at hlive
      exact hleast.1.2 (Lib.mem_threads_iff.mpr ⟨p, hlive⟩)
    · have hcheck : check m.lib (.spawn pr) = none := by
        rw [check, spawnCheck, if_neg (by omega)]
      rw [call, hcheck]
      change spawnBody m.lib pr = _
      have hmask : m.lib.withThread (getNextId m.lib) pr =
          { m.lib.withThread (getNextId m.lib) pr with mask := false } := by
        rw [← hun.user hu]
        rfl
      rw [spawnBody_eq hr, hmask]
      rfl
  · have hcheck : check m.lib (.spawn pr) = some (.ret fail) := by
      rw [check, spawnCheck, if_pos hfull]
    rw [call, hcheck]
  · obtain ⟨p, hp⟩ := Lib.mem_threads_iff.mp hk
    exact hwf.nonneg k p hp
  · rw [Lib.Live, heq] at hp
    exact Option.some.inj (hp.symm.trans hp')

/-- A run in which the id of a terminated thread is free again. -/
def reuseEvents : List Event :=
  [.call (.spawn .red), .call (.spawn .green), .call (.terminate 1)]

theorem exec_spawn_sample :
    ∃ m, Run.exec Machine.step (.start (uthreadInit Lib.fresh 1).2) reuseEvents = some m ∧
      ∃ k, IsLeast {k : ℤ | 0 ≤ k ∧ k ∉ m.lib.threads} k ∧
        call m.lib (.spawn .orange) = .ok (.ret k, m.lib.withThread k .orange) := by
  obtain ⟨m, hm, h⟩ : ∃ m, Run.exec Machine.step (.start (uthreadInit Lib.fresh 1).2)
      reuseEvents = some m ∧ (m.ctl, m.lib.threads.size) = (.user, 2) := by
    rw [← Option.map_eq_some_iff]
    decide
  simp only [Prod.mk.injEq] at h
  have hlt : m.lib.threads.size < maxThreads := by
    rw [h.2]
    decide
  obtain ⟨k, hk, -, hcall⟩ := ((exec_spawn (q := 1) rfl hm).1 h.1 .orange).1 hlt
  exact ⟨m, hm, k, hk, hcall⟩

end Uthreads
