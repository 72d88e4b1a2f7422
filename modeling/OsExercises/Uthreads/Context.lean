import OsExercises.Uthreads.Scheduler

/-!
# Saved contexts

`Scheduler` lets control enter a saved context at any time.  Here control itself is part of the
state: it is in the running thread's own code, or it is on its way through a `loadBuf`.  So a run of
a `Machine` is what the processor does: ticks and calls happen in a thread's own code, and a call or
a tick that ends in `running->loadBuf()` is followed by the place where that thread's context was
saved.

`timeHandler` looks at what its `saveBuf` returns and `uthread_suspend` does not.  A thread that
suspended itself and is switched in again therefore goes on right behind that `saveBuf`, where it
blocks itself once more: its call never returns (`not_continues`).

* `Effect.jmpBuf_eq` says which context a step of the library can overwrite.
* `Parked` is the invariant of a thread that has suspended itself, and `exec_parked` keeps it.
-/

set_option autoImplicit false

namespace Uthreads

variable {s t : Lib} {p q r : ThreadPtr} {i : Fin numOfQueue} {tid : ℤ} {a : Act} {x : Exit}

/-! ## What a step leaves alone -/

theorem Effect.brk_le (he : Effect s a x t) : s.brk ≤ t.brk := by
  cases he with
  | spawn => exact Nat.le_succ _
  | _ => exact le_rfl

@[simp] theorem setState_tid (s : Lib) (r q : ThreadPtr) (st : State) :
    ((s.setState r st).heap q).tid = (s.heap q).tid := (setState_heap s r q st).1

@[simp] theorem setState_jmpBuf (s : Lib) (r q : ThreadPtr) (st : State) :
    ((s.setState r st).heap q).jmpBuf = (s.heap q).jmpBuf := (setState_heap s r q st).2.2

@[simp] theorem startQuantum_tid (s : Lib) (r q : ThreadPtr) :
    ((startQuantum s r).heap q).tid = (s.heap q).tid := (startQuantum_heap s r q).1

@[simp] theorem startQuantum_jmpBuf (s : Lib) (r q : ThreadPtr) :
    ((startQuantum s r).heap q).jmpBuf = (s.heap q).jmpBuf := (startQuantum_heap s r q).2.2

@[simp] theorem giveWay_tid (s : Lib) (rest : List ThreadPtr) :
    ((s.giveWay i p rest).heap q).tid = (s.heap q).tid := startQuantum_tid _ _ _

@[simp] theorem giveWay_jmpBuf (s : Lib) (rest : List ThreadPtr) :
    ((s.giveWay i p rest).heap q).jmpBuf = (s.heap q).jmpBuf := startQuantum_jmpBuf _ _ _

theorem giveWay_heap_of_ne {rest : List ThreadPtr} (h : q ≠ p) :
    (s.giveWay i p rest).heap q = s.heap q := startQuantum_heap_of_ne h

@[simp] theorem saveBuf_tid (s : Lib) (r q : ThreadPtr) (place : SavePoint) :
    ((s.saveBuf r place).heap q).tid = (s.heap q).tid := by
  by_cases hq : q = r
  · simp [hq]
  · simp [hq]

@[simp] theorem pushReady_heap (s : Lib) (i : Fin numOfQueue) (r : ThreadPtr) :
    (s.pushReady i r).heap = s.heap := rfl

@[simp] theorem pushBlocked_heap (s : Lib) (r : ThreadPtr) : (s.pushBlocked r).heap = s.heap := rfl

@[simp] theorem setReady_heap (s : Lib) (i : Fin numOfQueue) (l : List ThreadPtr) :
    (s.setReady i l).heap = s.heap := rfl

@[simp] theorem sigBlock_heap (s : Lib) : s.sigBlock.heap = s.heap := rfl

@[simp] theorem sigUnblock_heap (s : Lib) : s.sigUnblock.heap = s.heap := rfl

theorem spawned_heap (s : Lib) (pr : Priority) (hq : q < s.brk) :
    (s.spawned pr).heap q = s.heap q := Function.update_of_ne hq.ne _ _

/-- Ids do not change. -/
theorem Effect.tid_eq (he : Effect s a x t) (hq : q < s.brk) :
    (t.heap q).tid = (s.heap q).tid := by
  cases he with
  | spawn hr pr => rw [sigUnblock_heap, spawned_heap _ pr (by exact hq), sigBlock_heap]
  | _ => simp

/-- What a step does to `_threads`. -/
theorem Effect.threads_eq (he : Effect s a x t) : t.threads = match a with
    | .body (.spawn _) => s.threads.insertIfNew (getNextId s) s.brk
    | .body (.terminate tid) => s.threads.erase tid
    | _ => s.threads := by
  cases he <;> rfl

/-- Which of the threads there were are there after a step. -/
theorem Effect.live_iff (h : Wf [] s) (he : Effect s a x t) (hq : q < s.brk) :
    t.Live q ↔ s.Live q ∧ ∀ tid, a = .body (.terminate tid) → (s.heap q).tid ≠ tid := by
  have htid := he.tid_eq hq
  have hthreads := he.threads_eq
  rw [Lib.Live, Lib.Live, htid, hthreads]
  cases a with
  | tick | land => simp
  | body c =>
    cases c with
    | suspend | resume => simp
    | terminate k =>
      rw [Std.TreeMap.getElem?_erase]
      by_cases hk : (s.heap q).tid = k
      · simp [hk]
      · have hk' : k ≠ (s.heap q).tid := Ne.symm hk
        simp [hk, hk']
    | spawn pr =>
      have hnew : getNextId s ∉ s.threads := h.isLeast_getNextId.1.2
      rw [Std.TreeMap.getElem?_insertIfNew]
      by_cases hk : (s.heap q).tid = getNextId s
      · simp [hk, hnew, hq.ne']
      · have hk' : getNextId s ≠ (s.heap q).tid := Ne.symm hk
        simp [hk']

/-- A thread's context is overwritten by a tick or a call of its own, and by nothing else. -/
theorem Effect.jmpBuf_eq (he : Effect s a x t) (hq : q < s.brk)
    (hrun : s.running = some q → a = .land) : (t.heap q).jmpBuf = (s.heap q).jmpBuf := by
  have hne : ∀ {r}, s.running = some r → a ≠ .land → q ≠ r := by
    rintro r hr ha rfl
    exact ha (hrun hr)
  cases he with
  | tickFirst hr => simp [hne hr (by simp)]
  | tickIdle hr => simp [hne hr (by simp)]
  | suspendRunning hr => simp [hne hr (by simp)]
  | spawn hr pr => rw [sigUnblock_heap, spawned_heap _ pr (by exact hq), sigBlock_heap]
  | _ => simp

/-- Only a `loadBuf` changes which thread is running. -/
theorem Effect.running_eq (he : Effect s a x t) (hx : x ≠ .jump) : t.running = s.running := by
  cases he <;> first | rfl | exact absurd rfl hx

/-! ## Control -/

/-- Where control is. -/
inductive Ctl
  /-- In the running thread's own code. -/
  | user
  /-- On its way through `running->loadBuf()`. -/
  | loading
  deriving DecidableEq, Repr

/-- The library and the processor. -/
structure Machine where
  /-- The library's data. -/
  lib : Lib
  /-- Where control is. -/
  ctl : Ctl

/-- Where control is when a call or a handler has ended, if the process is still there. -/
def Machine.next : Except Fault (Exit × Lib) → Option Machine
  | .ok (.ret _, s) => some ⟨s, .user⟩
  | .ok (.user, s) => some ⟨s, .user⟩
  | .ok (.jump, s) => some ⟨s, .loading⟩
  | .ok (.exited, _) => none
  | .error _ => none

/-- Threads run their own code, in which the timer expires unless its signal is blocked, or control
is on its way to a saved context. -/
def Machine.Enabled (m : Machine) : Event → Prop
  | .tick => m.ctl = .user ∧ m.lib.mask = false
  | .land => m.ctl = .loading
  | .call _ => m.ctl = .user

instance (m : Machine) : DecidablePred m.Enabled
  | .tick => inferInstanceAs (Decidable (m.ctl = .user ∧ m.lib.mask = false))
  | .land => inferInstanceAs (Decidable (m.ctl = .loading))
  | .call _ => inferInstanceAs (Decidable (m.ctl = .user))

/-- What happens at an event. -/
def Machine.step (m : Machine) (e : Event) : Option Machine :=
  if m.Enabled e then Machine.next (perform m.lib e) else none

variable {m n : Machine} {e : Event}

/-- Forgetting where control is gives a step of the scheduler. -/
theorem Machine.step_lib (h : m.step e = some n) : Uthreads.step m.lib e = some n.lib := by
  rw [Machine.step] at h
  split at h
  · rw [Uthreads.step]
    rcases hp : perform m.lib e with _ | ⟨x, s⟩
    · rw [hp] at h
      cases h
    · rw [hp] at h
      cases x with
      | exited => cases h
      | ret _ | user | jump =>
        cases h
        rfl
  · cases h

/-- The machine after `uthread_init`: the main thread goes on. -/
def Machine.start (s : Lib) : Machine := ⟨s, .user⟩

/-- **The machine refines the scheduler.** -/
theorem Machine.settled {q : ℤ} {s₀ : Lib} {es : List Event}
    (h0 : uthreadInit Lib.fresh q = (success, s₀))
    (h : Run.exec Machine.step (.start s₀) es = some m) : Settled m.lib ∧ m.lib.Bounded := by
  have hsim : Run.Reaches Uthreads.step s₀ m.lib := Run.Reaches.simulate (f := Machine.lib)
    (fun _ _ _ he ↦ (Run.Reaches.refl _).tail (Machine.step_lib he)) ⟨es, h⟩
  obtain ⟨es', h'⟩ := hsim
  exact exec_settled h0 h'

/-- What a step of the machine can do. -/
theorem Machine.step_cases (hm : Settled m.lib ∧ m.lib.Bounded) (h : m.step e = some n) :
    m.Enabled e ∧ (n = m ∨
      ∃ x, Effect m.lib e.toAct x n.lib ∧ n.ctl = if x = .jump then .loading else .user) := by
  rw [Machine.step] at h
  split at h
  case isFalse => cases h
  case isTrue hen =>
    refine ⟨hen, ?_⟩
    rcases perform_spec hm.1 hm.2 e with ⟨-, u, hu⟩ | ⟨c, rfl, hc, hu⟩ | ⟨hest, x, u, hu, heff⟩
    · rw [hu] at h
      cases h
    · rw [hu] at h
      cases h
      have hctl : m.ctl = .user := hen
      exact .inl (by rw [← hctl])
    · have hne := heff.ne_exited
      rw [hu] at h
      refine .inr ⟨x, ?_⟩
      cases x with
      | exited => exact absurd rfl hne
      | _ =>
        cases h
        exact ⟨heff, rfl⟩

/-! ## A thread that suspended itself -/

/-- `r` has saved its context in `uthread_suspend` and its own code does not run. -/
structure Parked (r : ThreadPtr) (m : Machine) : Prop where
  /-- `r` is a thread that was made. -/
  lt_brk : r < m.lib.brk
  /-- Its context. -/
  place : (m.lib.heap r).jmpBuf.place = .suspend
  /-- Whenever a thread's own code runs, it is another thread's. -/
  away : m.ctl = .user → m.lib.running ≠ some r

/-- When `r` is the running thread, all that can happen is that control enters its context. -/
theorem Parked.eq_land (h : Parked r m) (hr : m.lib.running = some r) (he : m.Enabled e) :
    e = .land := by
  have hctl : m.ctl ≠ .user := fun hu ↦ h.away hu hr
  cases e with
  | tick => exact absurd he.1 hctl
  | land => rfl
  | call c => exact absurd he hctl

/-- **A parked thread stays parked.**  Its context is saved by nobody else, and going on from it
ends in another `loadBuf`. -/
theorem Parked.step (hm : Settled m.lib ∧ m.lib.Bounded) (h : Parked r m)
    (hst : m.step e = some n) : Parked r n := by
  rcases Machine.step_cases hm hst with ⟨hen, rfl | ⟨x, heff, hctl⟩⟩
  · exact h
  · have hland : m.lib.running = some r → e.toAct = .land := fun hr ↦ by
      rw [h.eq_land hr hen, Event.toAct]
    refine ⟨h.lt_brk.trans_le heff.brk_le, by rw [heff.jmpBuf_eq h.lt_brk hland, h.place],
      fun hu hr ↦ ?_⟩
    have hx : x ≠ .jump := by
      rintro rfl
      simp [hctl] at hu
    rw [heff.running_eq hx] at hr
    rw [hland hr] at heff
    generalize n.lib = t at heff
    cases heff with
    | landUser hr' hp =>
      cases hr.symm.trans hr'
      exact hp h.place
    | landSuspend => exact hx rfl

/-- A thread that suspends itself is parked. -/
theorem parked_of_suspend (hm : Settled m.lib ∧ m.lib.Bounded) (hr : m.lib.running = some r)
    (hne : (m.lib.heap r).tid ≠ mainThread)
    (hst : m.step (.call (.suspend (m.lib.heap r).tid)) = some n) : Parked r n := by
  have hwf := hm.1.wf
  have hlive := hwf.live_of_running hr
  obtain ⟨i, p, rest, hf⟩ := hwf.exists_first hr hne
  have hcheck : check m.lib (.suspend (m.lib.heap r).tid) = none :=
    (check_eq_none_iff hm.2 _).mpr ⟨hne, Lib.mem_threads_iff.mpr ⟨r, hlive⟩⟩
  rw [Machine.step, perform, call, hcheck] at hst
  change (if _ then Machine.next (suspendBody m.lib (m.lib.heap r).tid) else none) = _ at hst
  rw [suspendBody_of_running hwf hr rfl hne hf] at hst
  split at hst
  · cases hst
    exact ⟨hwf.lt_brk _ _ hlive, by simp, by simp⟩
  · cases hst

/-- **The run lemma**: a parked thread stays parked in every run. -/
theorem exec_parked {es : List Event} (hm : Settled m.lib ∧ m.lib.Bounded) (h : Parked r m)
    (hst : Run.exec Machine.step m es = some n) : Parked r n := by
  have hI : ∀ m e n, (Settled m.lib ∧ m.lib.Bounded) ∧ Parked r m → Machine.step m e = some n →
      (Settled n.lib ∧ n.lib.Bounded) ∧ Parked r n :=
    fun _ _ _ h hst ↦ ⟨step_settled h.1 (Machine.step_lib hst), h.2.step h.1 hst⟩
  exact (Run.exec_induction hI ⟨hm, h⟩ hst).2

/-! ## Being switched in again -/

/-- In a run from `uthread_init`, `r` called `uthread_suspend` on itself and is now, some events
later, the running thread again. -/
def SwitchedIn (r : ThreadPtr) (n : Machine) : Prop :=
  ∃ q s₀ es m m' es', uthreadInit Lib.fresh q = (success, s₀) ∧
    Run.exec Machine.step (.start s₀) es = some m ∧ m.lib.running = some r ∧
    (m.lib.heap r).tid ≠ mainThread ∧
    m.step (.call (.suspend (m.lib.heap r).tid)) = some m' ∧
    Run.exec Machine.step m' es' = some n ∧ n.lib.running = some r

/-- `r`, being switched in, goes on: its call of `uthread_suspend` returns `0`, and `r` is the
running thread, marked as running, and not in `blocked`. -/
def Continues (r : ThreadPtr) (n : Machine) : Prop :=
  ∃ t, land n.lib = .ok (.ret success, t) ∧ t.running = some r ∧
    (t.heap r).state = .running ∧ r ∉ t.blocked

/-- **A thread that suspended itself never continues.**  Being switched in again, it puts itself
back into `blocked` and gives way, without a new call of `uthread_suspend`. -/
theorem not_continues (h : SwitchedIn r n) :
    ¬Continues r n ∧ ∃ n', n.step .land = some n' ∧ n'.ctl = .loading ∧
      n'.lib.running ≠ some r ∧ (n'.lib.heap r).state = .block ∧ r ∈ n'.lib.blocked := by
  obtain ⟨q, s₀, es, m, m', es', h0, h1, hr, hne, hsusp, h2, hn⟩ := h
  have hm := Machine.settled h0 h1
  have hm' := step_settled hm (Machine.step_lib hsusp)
  have hpark := exec_parked hm' (parked_of_suspend hm hr hne hsusp) h2
  have hset := Machine.settled h0
    (by rw [Run.exec_append, h1, Option.bind_some, Run.exec, hsusp, Option.bind_some, h2] :
      Run.exec Machine.step (.start s₀) (es ++ .call (.suspend (m.lib.heap r).tid) :: es') = some n)
  have hwf := hset.1.wf
  have hctl : n.ctl = .loading := by
    cases hc : n.ctl with
    | user => exact absurd hn (hpark.away hc)
    | loading => rfl
  obtain ⟨i, p, rest, hf⟩ :=
    hwf.exists_first hn (hwf.tid_ne_main_of_suspend (hwf.live_of_running hn) hpark.place)
  have hland := land_of_suspend hwf hn hpark.place hf
  have hpr : r ≠ p := by
    rintro rfl
    exact (hwf.running_alone hn).1 i hf.mem
  have hstep := congrArg Machine.next hland
  have hno : ¬Continues r n := by
    rintro ⟨t, ht, -⟩
    rw [hland] at ht
    cases ht
  refine ⟨hno, _, by rw [Machine.step, if_pos (show n.Enabled .land from hctl)]; exact hstep, rfl,
    fun hrun ↦ hpr (Option.some.inj hrun).symm, ?_, List.mem_append_right _ List.mem_cons_self⟩
  rw [giveWay_heap_of_ne hpr, pushBlocked_heap, Lib.setState_heap_self]

/-- A run in which thread 1 suspends itself, the main thread resumes it, and the timer switches it
in again. -/
theorem exec_resumed :
    ∃ m m' n, Run.exec Machine.step (.start (uthreadInit Lib.fresh 1).2)
        [.call (.spawn .red), .tick, .land] = some m ∧
      m.step (.call (.suspend 1)) = some m' ∧
      Run.exec Machine.step m' [.land, .call (.resume 1), .tick] = some n ∧
      (m.lib.running, (m.lib.heap 1).tid, n.lib.running, (land n.lib).toOption.map Prod.fst) =
        (some 1, 1, some 1, some .jump) := by
  have h : ((Run.exec Machine.step (.start (uthreadInit Lib.fresh 1).2)
      [.call (.spawn .red), .tick, .land]).bind fun m ↦
        (m.step (.call (.suspend 1))).bind fun m' ↦
          (Run.exec Machine.step m' [.land, .call (.resume 1), .tick]).map fun n ↦
            (m.lib.running, (m.lib.heap 1).tid, n.lib.running,
              (land n.lib).toOption.map Prod.fst)) = some (some 1, 1, some 1, some .jump) := by
    decide
  obtain ⟨m, hm, h⟩ := Option.bind_eq_some_iff.mp h
  obtain ⟨m', hm', h⟩ := Option.bind_eq_some_iff.mp h
  obtain ⟨n, hn, h⟩ := Option.map_eq_some_iff.mp h
  exact ⟨m, m', n, hm, hm', hn, h⟩

/-- Thread 1 is switched in at the end of that run. -/
theorem switchedIn_resumed :
    ∃ n, SwitchedIn 1 n ∧ (land n.lib).toOption.map Prod.fst = some .jump := by
  obtain ⟨m, m', n, hm, hm', hn, h⟩ := exec_resumed
  simp only [Prod.mk.injEq] at h
  obtain ⟨h1, htid, h2, hland⟩ := h
  refine ⟨n, ⟨1, _, _, m, m', _, rfl, hm, h1, ?_, ?_, hn, h2⟩, hland⟩
  · rw [htid]
    decide
  · rw [htid]
    exact hm'

/-- A resumed thread need not continue. -/
theorem exists_switchedIn_not_continues : ∃ n, SwitchedIn 1 n ∧ ¬Continues 1 n := by
  obtain ⟨n, hn, hland⟩ := switchedIn_resumed
  refine ⟨n, hn, fun ⟨t, ht, _⟩ ↦ ?_⟩
  rw [ht] at hland
  simp [Except.toOption] at hland

theorem not_continues_sample : ∃ n, SwitchedIn 1 n ∧ n.step .land ≠ none := by
  obtain ⟨n, hn, -⟩ := switchedIn_resumed
  obtain ⟨-, n', hn', -⟩ := not_continues hn
  exact ⟨n, hn, by rw [hn']; simp⟩

end Uthreads
