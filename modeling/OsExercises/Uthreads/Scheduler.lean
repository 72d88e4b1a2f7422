import OsExercises.ForMathlib.Run
import OsExercises.Uthreads.Calls

/-!
# The scheduler

`Effect s a x t` says that in the state `s` the library can do `a`, which ends with `x` in the state
`t`.  Its constructors are the cases of the functions, with the state each leaves behind.  From a
state where the data fit together the functions do what `Effect` says (`act_spec`), and every effect
keeps the data together (`Effect.wf`), so all that is said about runs goes by cases on `Effect`.

A run of the scheduler is any sequence of timer ticks, whole library calls of the running thread,
and returns into saved contexts.  `placement` is what holds in all of its states: every thread is in
exactly one place, and the test by which `switchThreads` decides whether to queue the former running
thread is right.
-/

set_option autoImplicit false

namespace Uthreads

variable {s t : Lib} {p q r : ThreadPtr} {i : Fin numOfQueue} {rest : List ThreadPtr} {tid : ℤ}

/-! ## Effects -/

/-- What the checks of a call establish. -/
def Lib.Established (s : Lib) : Call → Prop
  | .spawn _ => s.threads.size < maxThreads
  | .terminate tid => tid ≠ mainThread ∧ tid ∈ s.threads
  | .suspend tid => tid ≠ mainThread ∧ tid ∈ s.threads
  | .resume tid => ∃ p, s.threads[tid]? = some p ∧ p ∈ s.blocked

/-- What the library can be made to do. -/
inductive Act
  /-- The timer expires. -/
  | tick
  /-- Control enters the running thread's saved context. -/
  | land
  /-- The running thread executes a call, its checks being passed. -/
  | body (c : Call)
  deriving DecidableEq, Repr

/-- Do it. -/
def act (s : Lib) : Act → Except Fault (Exit × Lib)
  | .tick => timeHandler s
  | .land => land s
  | .body c => body s c

/-- The effects of the library's functions. -/
inductive Effect (s : Lib) : Act → Exit → Lib → Prop
  /-- The timer expires and the first ready thread takes over. -/
  | tickFirst {r p : ThreadPtr} {i : Fin numOfQueue} {rest : List ThreadPtr}
      (hr : s.running = some r) (hf : s.First i p rest) :
    Effect s .tick .jump ((((s.sigBlock.saveBuf r (.handler s.mask)).setState r .ready).giveWay
      i p rest).pushReady (queueOf (s.heap r).pr) r)
  /-- The timer expires and no other thread can run. -/
  | tickIdle {r : ThreadPtr} (hr : s.running = some r) (hidle : s.Idle) :
    Effect s .tick .jump (startQuantum
      ((s.sigBlock.saveBuf r (.handler s.mask)).setState r .ready) r)
  /-- The running thread goes on with its own code. -/
  | landUser {r : ThreadPtr} {m : Bool} (hr : s.running = some r)
      (hp : (s.heap r).jmpBuf.place ≠ .suspend) :
    Effect s .land .user { s with mask := m }
  /-- The running thread goes on in `uthread_suspend`. -/
  | landSuspend {r p : ThreadPtr} {i : Fin numOfQueue} {rest : List ThreadPtr}
      (hr : s.running = some r)
      (hp : (s.heap r).jmpBuf.place = .suspend) (hf : s.First i p rest) :
    Effect s .land .jump ((({ s with mask := (s.heap r).jmpBuf.savedMask }.setState r
      .block).pushBlocked r).giveWay i p rest)
  /-- A new thread. -/
  | spawn {r : ThreadPtr} (hr : s.running = some r) (pr : Priority) :
    Effect s (.body (.spawn pr)) (.ret (getNextId s)) (s.sigBlock.spawned pr).sigUnblock
  /-- The running thread ends itself. -/
  | terminateRunning {r p : ThreadPtr} {i : Fin numOfQueue} {rest : List ThreadPtr} {tid : ℤ}
      (hr : s.running = some r) (htid : (s.heap r).tid = tid) (hne : tid ≠ mainThread)
      (hf : s.First i p rest) :
    Effect s (.body (.terminate tid)) .jump { (s.sigBlock.setState r .ready).giveWay i p rest with
      threads := s.threads.erase tid }
  /-- A ready thread is ended. -/
  | terminateReady {p : ThreadPtr} {tid : ℤ} (hp : s.threads[tid]? = some p)
      (hne : tid ≠ mainThread) (hmem : p ∈ s.ready (queueOf (s.heap p).pr)) :
    Effect s (.body (.terminate tid)) (.ret success)
      ({ s.sigBlock.setReady (queueOf (s.heap p).pr)
          ((s.ready (queueOf (s.heap p).pr)).erase p) with
        threads := s.threads.erase tid } : Lib).sigUnblock
  /-- A blocked thread is ended. -/
  | terminateBlocked {p : ThreadPtr} {tid : ℤ} (hp : s.threads[tid]? = some p)
      (hne : tid ≠ mainThread) (hmem : p ∈ s.blocked) :
    Effect s (.body (.terminate tid)) (.ret success) ({ s.sigBlock with
      blocked := s.blocked.erase p
      threads := s.threads.erase tid } : Lib).sigUnblock
  /-- The running thread suspends itself. -/
  | suspendRunning {r p : ThreadPtr} {i : Fin numOfQueue} {rest : List ThreadPtr} {tid : ℤ}
      (hr : s.running = some r) (htid : (s.heap r).tid = tid) (hne : tid ≠ mainThread)
      (hf : s.First i p rest) :
    Effect s (.body (.suspend tid)) .jump ((((s.sigBlock.saveBuf r .suspend).setState r
      .block).pushBlocked r).giveWay i p rest)
  /-- A ready thread is suspended. -/
  | suspendReady {p : ThreadPtr} {tid : ℤ} (hp : s.threads[tid]? = some p) (hne : tid ≠ mainThread)
      (hmem : p ∈ s.ready (queueOf (s.heap p).pr)) :
    Effect s (.body (.suspend tid)) (.ret success)
      (((s.sigBlock.setReady (queueOf (s.heap p).pr)
        ((s.ready (queueOf (s.heap p).pr)).erase p)).setState p .block).pushBlocked p).sigUnblock
  /-- A blocked thread cannot be suspended. -/
  | suspendBlocked {p : ThreadPtr} {tid : ℤ} (hp : s.threads[tid]? = some p)
      (hmem : p ∈ s.blocked) :
    Effect s (.body (.suspend tid)) (.ret fail) s.sigBlock.sigUnblock
  /-- A blocked thread is resumed. -/
  | resume {p : ThreadPtr} {tid : ℤ} (hp : s.threads[tid]? = some p) (hmem : p ∈ s.blocked) :
    Effect s (.body (.resume tid)) (.ret success) (({ s with blocked := s.blocked.erase p }.setState
      p .ready).pushReady (queueOf (s.heap p).pr) p).sigUnblock

/-- Where the thread is that a call names. -/
theorem Wf.named_cases (h : Wf [] s) (hne : tid ≠ mainThread) (hmem : tid ∈ s.threads) :
    ∃ p, s.threads[tid]? = some p ∧
      ((s.running = some p ∧ (s.heap p).tid = tid ∧ ∃ i q rest, s.First i q rest) ∨
        p ∈ s.ready (queueOf (s.heap p).pr) ∨ p ∈ s.blocked) := by
  obtain ⟨p, hp⟩ := Lib.mem_threads_iff.mp hmem
  have hkey : (s.heap p).tid = tid := h.key _ _ hp
  refine ⟨p, hp, (h.live_cases (h.live_of_threads hp)).imp_left fun hr ↦ ?_⟩
  exact ⟨hr, hkey, h.exists_first hr (by rwa [hkey])⟩

/-- **The library's functions do what `Effect` says**, a call when what its checks establish still
holds. -/
theorem act_spec (h : Wf [] s) (hr : s.running = some r) (a : Act)
    (ha : ∀ c, a = .body c → s.Established c) : ∃ x t, act s a = .ok (x, t) ∧ Effect s a x t := by
  cases a with
  | tick =>
    rcases idle_or_first s with hidle | ⟨i, p, rest, hf⟩
    · exact ⟨_, _, timeHandler_of_idle h hr hidle, .tickIdle hr hidle⟩
    · exact ⟨_, _, timeHandler_of_first h hr hf, .tickFirst hr hf⟩
  | land =>
    match hp : (s.heap r).jmpBuf.place with
    | .entry => exact ⟨_, _, land_of_entry hr hp, .landUser hr (by simp [hp])⟩
    | .handler m => exact ⟨_, _, land_of_handler hr hp, .landUser hr (by simp [hp])⟩
    | .suspend =>
      obtain ⟨i, p, rest, hf⟩ :=
        h.exists_first hr (h.tid_ne_main_of_suspend (h.live_of_running hr) hp)
      exact ⟨_, _, land_of_suspend h hr hp hf, .landSuspend hr hp hf⟩
  | body c =>
    have hest := ha c rfl
    cases c with
    | spawn pr => exact ⟨_, _, spawnBody_eq hr pr, .spawn hr pr⟩
    | terminate tid =>
      obtain ⟨hne, hmem⟩ := hest
      obtain ⟨p, hp, ⟨h1, hkey, i, q, rest, hf⟩ | h1 | h1⟩ := h.named_cases hne hmem
      · exact ⟨_, _, terminateBody_of_running h h1 hkey hf, .terminateRunning h1 hkey hne hf⟩
      · exact ⟨_, _, terminateBody_of_ready h hr hp h1, .terminateReady hp hne h1⟩
      · exact ⟨_, _, terminateBody_of_blocked h hr hp h1, .terminateBlocked hp hne h1⟩
    | suspend tid =>
      obtain ⟨hne, hmem⟩ := hest
      obtain ⟨p, hp, ⟨h1, hkey, i, q, rest, hf⟩ | h1 | h1⟩ := h.named_cases hne hmem
      · exact ⟨_, _, suspendBody_of_running h h1 hkey hne hf, .suspendRunning h1 hkey hne hf⟩
      · exact ⟨_, _, suspendBody_of_ready h hr hp h1, .suspendReady hp hne h1⟩
      · exact ⟨_, _, suspendBody_of_blocked h hr hp h1, .suspendBlocked hp h1⟩
    | resume tid =>
      obtain ⟨p, hp, hmem⟩ := hest
      exact ⟨_, _, resumeBody_of_blocked hp hmem, .resume hp hmem⟩

/-- **Every effect keeps the data together.** -/
theorem Effect.wf {a : Act} {x : Exit} (he : Effect s a x t) (h : Wf [] s) : Wf [] t := by
  cases he with
  | @tickFirst r p i rest hr hf =>
    have h1 : Wf [] (s.sigBlock.saveBuf r (.handler s.mask)) := h.congr.saveBuf (by simp)
    have h2 := h1.switch_first hr (show Lib.First _ i p rest from hf)
    rw [Lib.saveBuf_heap_self] at h2
    exact h2
  | @tickIdle r hr hidle =>
    have h1 : Wf [] (s.sigBlock.saveBuf r (.handler s.mask)) := h.congr.saveBuf (by simp)
    exact h1.switch_idle hr
  | landUser => exact h.congr
  | @landSuspend r p i rest hr hp hf =>
    have h1 : Wf [] { s with mask := (s.heap r).jmpBuf.savedMask } := h.congr
    exact h1.suspendRunning hr (h.tid_ne_main_of_suspend (h.live_of_running hr) hp) hf
  | spawn hr pr =>
    have h1 : Wf [] s.sigBlock := h.congr
    exact (h1.spawned pr).congr
  | terminateRunning hr htid hne hf => exact h.terminateBody_running hr htid hne hf
  | terminateReady hp hne hmem => exact h.terminateBody_ready hp hne hmem
  | terminateBlocked hp hne hmem => exact h.terminateBody_blocked hp hne hmem
  | suspendRunning hr htid hne hf => exact h.suspendBody_running hr (htid ▸ hne) hf
  | suspendReady hp hne hmem => exact h.suspendBody_ready hp hne hmem
  | suspendBlocked => exact h.congr
  | resume hp hmem => exact h.resumeBody_blocked hmem

/-- After every effect some thread is running. -/
theorem Effect.running {a : Act} {x : Exit} (he : Effect s a x t) (hr : s.running.isSome) :
    t.running.isSome := by
  cases he with
  | tickFirst => rfl
  | tickIdle => exact hr
  | landUser => exact hr
  | landSuspend => rfl
  | spawn => exact hr
  | terminateRunning => rfl
  | terminateReady => exact hr
  | terminateBlocked => exact hr
  | suspendRunning => rfl
  | suspendReady => exact hr
  | suspendBlocked => exact hr
  | resume => exact hr

/-- The state between two calls. -/
structure Settled (s : Lib) : Prop where
  /-- The data fit together. -/
  wf : Wf [] s
  /-- Some thread is running. -/
  running : s.running.isSome

theorem Effect.settled {a : Act} {x : Exit} (he : Effect s a x t) (h : Settled s) : Settled t :=
  ⟨he.wf h.wf, he.running h.running⟩

/-! ## Runs -/

/-- An event of a run: the timer expires, control enters a saved context, or the running thread
makes a library call. -/
inductive Event
  | tick
  | land
  | call (c : Call)
  deriving DecidableEq, Repr

/-- What happens at an event. -/
def perform (s : Lib) : Event → Except Fault (Exit × Lib)
  | .tick => timeHandler s
  | .land => land s
  | .call c => call s c

/-- The state after an event, if the process is still there. -/
def step (s : Lib) (e : Event) : Option Lib :=
  match perform s e with
  | .ok (.exited, _) => none
  | .ok (_, t) => some t
  | .error _ => none

/-- There are never more threads than `uthread_spawn` allows. -/
def Lib.Bounded (s : Lib) : Prop := s.threads.size ≤ maxThreads

theorem check_eq_none_iff (hs : s.Bounded) (c : Call) : check s c = none ↔ s.Established c := by
  cases c with
  | spawn pr =>
    rw [Lib.Bounded] at hs
    simp only [check, spawnCheck, Lib.Established, ite_eq_right_iff, reduceCtorEq, imp_false]
    omega
  | terminate tid =>
    simp only [check, terminateCheck, Lib.Established]
    split <;> simp_all
  | suspend tid =>
    simp only [check, suspendCheck, Lib.Established]
    split <;> simp_all
  | resume tid =>
    simp only [check, resumeCheck, Lib.Established]
    split <;> simp_all

/-- What a check answers is `-1`, or the end of the process for the main thread. -/
theorem check_eq_some {c : Call} {x : Exit} (hx : check s c = some x) :
    x = .ret fail ∨ x = .exited ∧ c = .terminate mainThread := by
  cases c with
  | spawn pr =>
    simp only [check, spawnCheck] at hx
    split at hx <;> simp_all
  | terminate tid =>
    simp only [check, terminateCheck] at hx
    split at hx
    · simp_all
    · split at hx <;> simp_all
  | suspend tid =>
    simp only [check, suspendCheck] at hx
    split at hx
    · simp_all
    · split at hx <;> simp_all
  | resume tid =>
    simp only [check, resumeCheck] at hx
    split at hx
    · simp_all
    · split at hx <;> simp_all

/-- No effect ends the process. -/
theorem Effect.ne_exited {a : Act} {x : Exit} (he : Effect s a x t) : x ≠ .exited := by
  cases he <;> simp

/-- What an event does: nothing, when the checks of a call fail, or the effect of the act. -/
def Event.toAct : Event → Act
  | .tick => .tick
  | .land => .land
  | .call c => .body c

/-- **What happens at an event**: the process ends, a call fails its checks and changes nothing, or
the act has its effect. -/
theorem perform_spec (h : Settled s) (hs : s.Bounded) (e : Event) :
    (e = .call (.terminate mainThread) ∧ ∃ t, perform s e = .ok (.exited, t)) ∨
      (∃ c, e = .call c ∧ check s c = some (.ret fail) ∧ perform s e = .ok (.ret fail, s)) ∨
        ((∀ c, e = .call c → s.Established c) ∧
          ∃ x t, perform s e = .ok (x, t) ∧ Effect s e.toAct x t) := by
  obtain ⟨r, hr⟩ := Option.isSome_iff_exists.mp h.running
  cases e with
  | tick => exact .inr (.inr ⟨by simp, act_spec h.wf hr .tick (by simp)⟩)
  | land => exact .inr (.inr ⟨by simp, act_spec h.wf hr .land (by simp)⟩)
  | call c =>
    cases hc : check s c with
    | none =>
      have hest := (check_eq_none_iff hs c).mp hc
      have hperf : perform s (.call c) = act s (.body c) := by
        rw [perform, call, hc]
        rfl
      rw [hperf]
      exact .inr (.inr ⟨by rintro _ ⟨⟩; exact hest,
        act_spec h.wf hr (.body c) (by rintro _ ⟨⟩; exact hest)⟩)
    | some x =>
      rcases check_eq_some hc with rfl | ⟨rfl, rfl⟩
      · exact .inr (.inl ⟨c, rfl, hc, by rw [perform, call, hc]⟩)
      · exact .inl ⟨rfl, _, by rw [perform, call, hc]⟩

/-- **What one step can do.** -/
theorem step_cases (h : Settled s) (hs : s.Bounded) {e : Event} (hst : step s e = some t) :
    (∃ c, e = .call c ∧ check s c = some (.ret fail) ∧ t = s) ∨
      ((∀ c, e = .call c → s.Established c) ∧ ∃ x, Effect s e.toAct x t) := by
  rw [step] at hst
  rcases perform_spec h hs e with ⟨-, u, hu⟩ | ⟨c, rfl, hc, hu⟩ | ⟨hest, x, u, hu, heff⟩
  · simp [hu] at hst
  · rw [hu] at hst
    exact .inl ⟨c, rfl, hc, (Option.some.inj hst).symm⟩
  · have hut : u = t := by
      have hne := heff.ne_exited
      rw [hu] at hst
      cases x <;> simp_all
    exact .inr ⟨hest, x, hut ▸ heff⟩

/-- Every event but the end of the process can happen. -/
theorem step_isSome (h : Settled s) (hs : s.Bounded) {e : Event}
    (he : e ≠ .call (.terminate mainThread)) : (step s e).isSome := by
  rw [step]
  rcases perform_spec h hs e with ⟨hend, -⟩ | ⟨c, rfl, hc, hu⟩ | ⟨hest, x, u, hu, heff⟩
  · exact absurd hend he
  · rw [hu]
    rfl
  · have hne := heff.ne_exited
    rw [hu]
    cases x <;> simp_all

theorem size_erase_le (m : Std.TreeMap ℤ ThreadPtr) (k : ℤ) : (m.erase k).size ≤ m.size := by
  rw [Std.TreeMap.size_erase]
  split <;> omega

/-- The number of threads stays bounded when `uthread_spawn` has made its check. -/
theorem Effect.bounded {a : Act} {x : Exit} (he : Effect s a x t) (hs : s.Bounded)
    (ha : ∀ c, a = .body c → s.Established c) : t.Bounded := by
  cases he with
  | tickFirst => exact hs
  | tickIdle => exact hs
  | landUser => exact hs
  | landSuspend => exact hs
  | spawn hr pr =>
    have hlt : s.threads.size < maxThreads := ha _ rfl
    change (s.threads.insertIfNew _ _).size ≤ maxThreads
    rw [Std.TreeMap.size_insertIfNew]
    split <;> omega
  | terminateRunning => exact (size_erase_le _ _).trans hs
  | terminateReady => exact (size_erase_le _ _).trans hs
  | terminateBlocked => exact (size_erase_le _ _).trans hs
  | suspendRunning => exact hs
  | suspendReady => exact hs
  | suspendBlocked => exact hs
  | resume => exact hs

/-- **The step lemma**: one event keeps the data together and the number of threads bounded. -/
theorem step_settled {e : Event} (h : Settled s ∧ s.Bounded) (hst : step s e = some t) :
    Settled t ∧ t.Bounded := by
  obtain ⟨hs, hb⟩ := h
  rcases step_cases hs hb hst with ⟨c, -, -, rfl⟩ | ⟨hest, x, heff⟩
  · exact ⟨hs, hb⟩
  · refine ⟨heff.settled hs, heff.bounded hb fun c hc ↦ hest c ?_⟩
    cases e <;> simp_all [Event.toAct]

/-- `uthread_init` leaves the main thread running and no other. -/
theorem uthreadInit_settled {q : ℤ} {s : Lib} (h : uthreadInit Lib.fresh q = (success, s)) :
    Settled s ∧ s.Bounded := by
  have hget : ∀ k : ℤ, ((∅ : Std.TreeMap ℤ ThreadPtr).insertIfNew 0 0)[k]? =
      if 0 = k then some 0 else none := by
    intro k
    simp [Std.TreeMap.getElem?_insertIfNew]
  have hs : s = startQuantum { Lib.fresh with
      brk := 1
      threads := (∅ : Std.TreeMap ℤ ThreadPtr).insertIfNew 0 0
      running := some 0 } 0 := by
    rw [uthreadInit] at h
    split at h
    · simp [success, fail] at h
    · rw [← (Prod.mk.inj h).2]
      congr 1
      simp [Lib.fresh]
  have hheap : ∀ p, (s.heap p).tid = 0 := fun p ↦ by
    rw [hs, (startQuantum_heap _ _ _).1]
    rfl
  have hthreads : s.threads = (∅ : Std.TreeMap ℤ ThreadPtr).insertIfNew 0 0 := by rw [hs]; rfl
  have hready : s.ready = fun _ ↦ [] := by rw [hs]; rfl
  have hblocked : s.blocked = [] := by rw [hs]; rfl
  have hrun : s.running = some 0 := by rw [hs]; rfl
  have hlive : ∀ p, s.Live p ↔ p = 0 := fun p ↦ by
    rw [Lib.Live, hheap, hthreads, hget]
    simp [eq_comm]
  refine ⟨⟨⟨fun p ↦ ?_, fun k p hk ↦ ?_, fun k p hk ↦ ?_, fun k p hk ↦ ?_, fun p hp ↦ ?_, ?_, ?_,
    0, ?_, ?_, ?_⟩, ?_⟩, ?_⟩
  · simp only [hlive]
    simp only [occ, Lib.readyCount, hready, hblocked, hrun, Option.toList_some, List.count_nil,
      List.count_singleton, Finset.sum_const_zero, beq_iff_eq]
    by_cases hp : p = 0 <;> simp [hp, eq_comm]
  · rw [hthreads, hget] at hk
    rw [hheap]
    split at hk
    · assumption
    · simp at hk
  · rw [hthreads, hget] at hk
    split at hk
    · omega
    · simp at hk
  · rw [hthreads, hget] at hk
    split at hk
    · cases hk
      rw [hs]
      exact Nat.one_pos
    · simp at hk
  · rw [hrun] at hp
    cases hp
    rw [hs, startQuantum_heap_self]
  · simp [hready]
  · simp [hblocked]
  · rw [hthreads, hget]
    rfl
  · simp [hblocked]
  · rw [hs, (startQuantum_heap _ _ _).2.2]
    simp [Lib.fresh, Thread.new]
  · simp [hrun]
  · rw [Lib.Bounded, hthreads]
    decide

/-- **The run lemma.** -/
theorem exec_settled {q : ℤ} {s₀ : Lib} {es : List Event}
    (h0 : uthreadInit Lib.fresh q = (success, s₀)) (h : Run.exec step s₀ es = some s) :
    Settled s ∧ s.Bounded :=
  Run.exec_induction (fun _ _ _ hs he ↦ step_settled hs he) (uthreadInit_settled h0) h

/-! ## Every thread is in exactly one place -/

/-- `p` is the running thread, or once in the queue of its priority, or once in `blocked`, with the
state that goes with the place, and nowhere else. -/
def Lib.Placed (s : Lib) (p : ThreadPtr) : Prop :=
  (s.running = some p ∧ (s.heap p).state = .running ∧ (∀ i, p ∉ s.ready i) ∧ p ∉ s.blocked) ∨
  (s.running ≠ some p ∧ (s.heap p).state = .ready ∧
    (s.ready (queueOf (s.heap p).pr)).count p = 1 ∧
    (∀ i, i ≠ queueOf (s.heap p).pr → p ∉ s.ready i) ∧ p ∉ s.blocked) ∨
  (s.running ≠ some p ∧ (s.heap p).state = .block ∧ (∀ i, p ∉ s.ready i) ∧ s.blocked.count p = 1)

/-- What holds of the containers between two events. -/
structure Placement (s : Lib) : Prop where
  /-- A key is its thread's id, and the thread is in exactly one place. -/
  placed : ∀ (k : ℤ) (p : ThreadPtr), s.threads[k]? = some p → (s.heap p).tid = k ∧ s.Placed p
  /-- Nothing else is in a container. -/
  known : ∀ p, s.running = some p ∨ (∃ i, p ∈ s.ready i) ∨ p ∈ s.blocked →
    ∃ k : ℤ, s.threads[k]? = some p
  /-- Some thread is running. -/
  running : s.running.isSome
  /-- The main thread is there and not blocked. -/
  main : ∃ m, s.threads[mainThread]? = some m ∧ m ∉ s.blocked
  /-- The number of threads. -/
  size_eq : s.threads.size = 1 + s.blocked.length + ∑ i, (s.ready i).length
  /-- The test in `switchThreads`, made after `runThread`, tells whether a thread was ready. -/
  switch_test : ∀ r t, s.running = some r → runThread (s.setState r .ready) = .ok t →
    (t.threads.size - 1 ≠ t.blocked.length ↔ ∃ i, s.ready i ≠ [])

theorem Wf.placed (h : Wf [] s) (hp : s.Live p) : s.Placed p := by
  rcases h.live_cases hp with h1 | h1 | h1
  · exact .inl ⟨h1, h.running p h1, h.running_alone h1⟩
  · have h2 := (h.takeReady h1).not_placed List.mem_cons_self
    have h3 : (s.ready (queueOf (s.heap p).pr)).count p = 1 := by
      have h4 := h.occ_le p
      have h5 := count_le_readyCount s (queueOf (s.heap p).pr) p
      have h6 : 0 < (s.ready (queueOf (s.heap p).pr)).count p := List.count_pos_iff.mpr h1
      rw [occ] at h4
      omega
    exact .inr (.inl ⟨h2.1, (h.ready _ p h1).1, h3,
      fun i hi hmem ↦ hi (h.ready i p hmem).2.symm, h2.2.2⟩)
  · have h2 := h.blocked_alone h1
    have h3 : s.blocked.count p = 1 := by
      have h4 := h.occ_le p
      have h5 : 0 < s.blocked.count p := List.count_pos_iff.mpr h1
      rw [occ] at h4
      omega
    exact .inr (.inr ⟨h2.1, h.blocked p h1, h2.2, h3⟩)

/-- Choosing the next thread changes neither `_threads` nor `blocked`. -/
theorem popReady_keeps (s : Lib) :
    (popReady s).2.threads = s.threads ∧ (popReady s).2.blocked = s.blocked := by
  unfold popReady getReady
  split_ifs <;> exact ⟨rfl, rfl⟩

theorem runThread_keeps (h : runThread s = .ok t) :
    t.threads = s.threads ∧ t.blocked = s.blocked := by
  have hkeep := popReady_keeps s
  rw [runThread] at h
  revert h hkeep
  generalize popReady s = ps
  obtain ⟨tmp, u⟩ := ps
  intro h hkeep
  change (Lib.derefRunning _ >>= _) = _ at h
  rw [Lib.derefRunning] at h
  split at h
  · cases h
    split <;> exact hkeep
  · cases h

theorem Settled.placement (h : Settled s) : Placement s := by
  obtain ⟨r, hr⟩ := Option.isSome_iff_exists.mp h.running
  obtain ⟨m, hm, hmb, -⟩ := h.wf.main
  have hsize : s.threads.size = 1 + s.blocked.length + ∑ i, (s.ready i).length := by
    have h1 := h.wf.size_eq
    rw [hr] at h1
    simp only [List.length_nil, Option.toList_some, List.length_cons, Lib.readyLength] at h1
    omega
  refine ⟨fun k p hk ↦ ⟨h.wf.key k p hk, h.wf.placed (h.wf.live_of_threads hk)⟩, fun p hp ↦ ?_,
    h.running, ⟨m, hm, hmb⟩, hsize, fun r t _ ht ↦ ?_⟩
  · rcases hp with h1 | ⟨i, h1⟩ | h1
    · exact ⟨_, h.wf.live_of_running h1⟩
    · exact ⟨_, h.wf.live_of_ready h1⟩
    · exact ⟨_, h.wf.live_of_blocked h1⟩
  · obtain ⟨h1, h2⟩ := runThread_keeps ht
    have h3 : (s.setState r .ready).threads = s.threads := rfl
    have h4 : (s.setState r .ready).blocked = s.blocked := rfl
    rw [h1, h2, h3, h4, hsize]
    have h5 : (∃ i, s.ready i ≠ []) ↔ ∑ i, (s.ready i).length ≠ 0 := by
      rw [show ∑ i, (s.ready i).length = s.readyLength from rfl, Ne, Lib.readyLength_eq_zero,
        not_forall]
    rw [h5]
    omega

/-- **The representation invariant.**  After `uthread_init` and any ticks, calls and switches, every
thread is in exactly one place, and every further event but the end of the process can happen. -/
theorem exec_placement {q : ℤ} {s₀ s : Lib} {es : List Event}
    (h0 : uthreadInit Lib.fresh q = (success, s₀)) (h : Run.exec step s₀ es = some s) :
    Placement s ∧ ∀ e, e ≠ .call (.terminate mainThread) → (step s e).isSome := by
  obtain ⟨hs, hb⟩ := exec_settled h0 h
  exact ⟨hs.placement, fun e he ↦ step_isSome hs hb he⟩

/-- A run with all kinds of events. -/
def sampleEvents : List Event :=
  [.call (.spawn .red), .call (.spawn .green), .tick, .land, .call (.suspend 1), .land,
    .call (.resume 1), .call (.terminate 2), .tick, .land]

theorem exec_placement_sample :
    ∃ s₀ s, uthreadInit Lib.fresh 1 = (success, s₀) ∧ Run.exec step s₀ sampleEvents = some s ∧
      Placement s := by
  obtain ⟨s, hs⟩ : ∃ s, Run.exec step (uthreadInit Lib.fresh 1).2 sampleEvents = some s :=
    Option.isSome_iff_exists.mp (by decide)
  exact ⟨_, s, rfl, hs, (exec_placement (q := 1) rfl hs).1⟩

end Uthreads
