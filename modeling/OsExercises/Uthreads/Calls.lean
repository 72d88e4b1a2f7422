import OsExercises.ForMathlib.FirstGap
import OsExercises.Uthreads.Placement

/-!
# What each call does

From a state where the data fit together (`Wf [] s`) no function of the library goes wrong, and what
it does depends on a few cases only: is a thread ready, is the thread the running one, is it
blocked. For each function there is one lemma here that lists its cases with the state each ends in,
and the invariant of every one of these states.  Everything later that is about runs is derived from
these lemmas; none unfolds a function again.
-/

set_option autoImplicit false

namespace Uthreads

variable {s : Lib} {fl : List ThreadPtr} {p q r : ThreadPtr} {i : Fin numOfQueue}
  {rest : List ThreadPtr} {tid : ℤ}

/-! ## The next thread -/

/-- No thread is ready. -/
def Lib.Idle (s : Lib) : Prop := ∀ i, s.ready i = []

/-- `p` heads queue `i`, the first queue that is not empty, and `rest` is behind it. -/
def Lib.First (s : Lib) (i : Fin numOfQueue) (p : ThreadPtr) (rest : List ThreadPtr) : Prop :=
  s.ready i = p :: rest ∧ ∀ j < i, s.ready j = []

theorem idle_or_first (s : Lib) : s.Idle ∨ ∃ i p rest, s.First i p rest := by
  have hfin : ∀ j : Fin numOfQueue, j = redQ ∨ j = orangeQ ∨ j = greenQ := by decide
  match hr : s.ready redQ with
  | p :: rest => exact .inr ⟨redQ, p, rest, hr, fun j hj ↦ absurd hj (by simp [redQ])⟩
  | [] =>
    have hlt : ∀ j < orangeQ, s.ready j = [] := by
      intro j hj
      rcases hfin j with rfl | rfl | rfl
      · exact hr
      · exact absurd hj (by decide)
      · exact absurd hj (by decide)
    match ho : s.ready orangeQ with
    | p :: rest => exact .inr ⟨orangeQ, p, rest, ho, hlt⟩
    | [] =>
      match hg : s.ready greenQ with
      | p :: rest =>
        refine .inr ⟨greenQ, p, rest, hg, fun j hj ↦ ?_⟩
        rcases hfin j with rfl | rfl | rfl
        · exact hr
        · exact ho
        · exact absurd hj (by decide)
      | [] =>
        refine .inl fun j ↦ ?_
        rcases hfin j with rfl | rfl | rfl
        · exact hr
        · exact ho
        · exact hg

theorem Lib.First.mem (h : s.First i p rest) : p ∈ s.ready i := by simp [h.1]

theorem Lib.First.not_idle (h : s.First i p rest) : ¬s.Idle := by
  intro hi
  have h1 := h.1
  rw [hi i] at h1
  simp at h1

theorem Lib.First.erase (h : s.First i p rest) : (s.ready i).erase p = rest := by simp [h.1]

theorem popReady_of_first (h : s.First i p rest) (hsize : 1 < s.threads.size) :
    popReady s = (some p, s.setReady i rest) := by
  have hget : getReady s i = (some p, s.setReady i rest) := by simp [getReady, h.1]
  have hne : s.ready i ≠ [] := by simp [h.1]
  rw [popReady, if_pos hsize]
  match i with
  | 0 => rw [if_pos (by exact hne)]; exact hget
  | 1 =>
    rw [if_neg (by simpa using h.2 redQ (by decide)), if_pos (by exact hne)]
    exact hget
  | 2 =>
    rw [if_neg (by simpa using h.2 redQ (by decide)),
      if_neg (by simpa using h.2 orangeQ (by decide)), if_pos (by exact hne)]
    exact hget

theorem popReady_of_idle (h : s.Idle) (hsize : 1 < s.threads.size) : popReady s = (none, s) := by
  rw [popReady, if_pos hsize]
  simp [h redQ, h orangeQ, h greenQ]

theorem runThread_of_first (h : s.First i p rest) (hsize : 1 < s.threads.size) :
    runThread s = .ok (startQuantum { s.setReady i rest with running := some p } p) := by
  rw [runThread, popReady_of_first h hsize]
  rfl

/-- The state is made of its parts. -/
theorem Lib.with_running (hr : s.running = some r) : { s with running := some r } = s := by
  rw [← hr]

/-- When `_threads` has one element, that is the running thread. -/
theorem Wf.begin_eq (h : Wf [] s) (hr : s.running = some r) (hsize : s.threads.size = 1) :
    s.threads.toList.head?.map Prod.snd = some r := by
  obtain ⟨⟨k, p⟩, hkp⟩ : ∃ a, s.threads.toList = [a] := by
    rw [← List.length_eq_one_iff, Std.TreeMap.length_toList, hsize]
  have hlive : s.Live p := h.live_of_threads (k := k)
    (Std.TreeMap.mem_toList_iff_getElem?_eq_some.mp (by rw [hkp]; exact List.mem_singleton_self _))
  have hrlive : s.Live r := h.mem_everyone_iff.mp (by simp [everyone, hr])
  have hlen : (everyone [] s).length = 1 := by
    rw [← hsize, ← Std.TreeMap.length_keys, ← h.perm_keys.length_eq, List.length_map]
  obtain ⟨q, hq⟩ := List.length_eq_one_iff.mp hlen
  have hpq : p = q := by simpa [hq] using h.mem_everyone_iff.mpr hlive
  have hrq : r = q := by simpa [hq] using h.mem_everyone_iff.mpr hrlive
  simp [hkp, hpq, hrq]

/-- With nothing ready, the running thread goes on. -/
theorem runThread_of_idle (hr : s.running = some r) (hidle : s.Idle) (hpos : 0 < s.threads.size)
    (hbegin : s.threads.size = 1 → s.threads.toList.head?.map Prod.snd = some r) :
    runThread s = .ok (startQuantum s r) := by
  rcases Nat.eq_or_lt_of_le hpos with h1 | h1
  · have hpop : popReady s = (some r, s) := by
      rw [popReady, if_neg (by omega), if_pos h1.symm, hbegin h1.symm]
    rw [runThread, hpop]
    simp only [Option.isSome_some, if_true, Lib.with_running hr, Lib.derefRunning, hr]
    rfl
  · rw [runThread, popReady_of_idle hidle h1]
    simp only [Option.isSome_none, Lib.derefRunning]
    simp [hr]

theorem Wf.size_pos (h : Wf [] s) : 0 < s.threads.size := by
  obtain ⟨m, hm, -⟩ := h.main
  rw [← Std.TreeMap.length_keys]
  exact List.length_pos_of_mem (Std.TreeMap.mem_keys.mpr
    (Std.TreeMap.mem_iff_isSome_getElem?.mpr (by rw [hm]; rfl)))

/-- A thread that is ready and one that is running or blocked are two. -/
theorem Wf.one_lt_size (h : Wf fl s) (hf : s.First i p rest)
    (hother : s.running.isSome ∨ s.blocked ≠ []) : 1 < s.threads.size := by
  have h1 : 0 < s.readyLength := Nat.pos_of_ne_zero fun h0 ↦
    hf.not_idle (Lib.readyLength_eq_zero.mp h0)
  have h2 := h.size_eq
  rcases hother with hr | hb
  · obtain ⟨r, hr⟩ := Option.isSome_iff_exists.mp hr
    rw [hr] at h2
    simp only [Option.toList_some, List.length_cons] at h2
    omega
  · have h3 : 0 < s.blocked.length := List.length_pos_of_ne_nil hb
    omega

/-- The running thread gives way to the first ready one: it is out of every container, and the other
one, which was at the head of its queue, has started a quantum. -/
def Lib.giveWay (s : Lib) (i : Fin numOfQueue) (p : ThreadPtr) (rest : List ThreadPtr) : Lib :=
  startQuantum { s.setReady i rest with running := some p } p

theorem Wf.giveWay (h : Wf fl { s with running := none }) (hf : s.First i p rest) :
    Wf fl (s.giveWay i p rest) := by
  have h1 : Wf (p :: fl) ({ s with running := none }.setReady i rest) := by
    have h2 := h.takeReady (i := i) (p := p) hf.mem
    rwa [show ({ s with running := none } : Lib).ready i = s.ready i from rfl, hf.erase] at h2
  have h2 := ((h1.setState List.mem_cons_self .running).putRunning rfl (by simp)).increaseQuantom p
  exact h2.congr

/-! ### Reading the state after the running thread gave way -/

@[simp] theorem startQuantum_ready (s : Lib) (r : ThreadPtr) : (startQuantum s r).ready = s.ready :=
  rfl

@[simp] theorem startQuantum_blocked (s : Lib) (r : ThreadPtr) :
    (startQuantum s r).blocked = s.blocked := rfl

@[simp] theorem startQuantum_running (s : Lib) (r : ThreadPtr) :
    (startQuantum s r).running = s.running := rfl

@[simp] theorem startQuantum_threads (s : Lib) (r : ThreadPtr) :
    (startQuantum s r).threads = s.threads := rfl

@[simp] theorem startQuantum_mask (s : Lib) (r : ThreadPtr) : (startQuantum s r).mask = s.mask :=
  rfl

theorem startQuantum_heap_of_ne {s : Lib} {r q : ThreadPtr} (h : q ≠ r) :
    (startQuantum s r).heap q = s.heap q := by simp [startQuantum, h]

theorem startQuantum_heap_self (s : Lib) (r : ThreadPtr) : (startQuantum s r).heap r =
    { s.heap r with state := .running, quantom := (s.heap r).quantom + 1 } := by
  simp [startQuantum]

/-- What a quantum does not change. -/
theorem startQuantum_heap (s : Lib) (r q : ThreadPtr) :
    ((startQuantum s r).heap q).tid = (s.heap q).tid ∧
      ((startQuantum s r).heap q).pr = (s.heap q).pr ∧
        ((startQuantum s r).heap q).jmpBuf = (s.heap q).jmpBuf := by
  by_cases hq : q = r
  · subst hq
    simp [startQuantum_heap_self]
  · simp [startQuantum_heap_of_ne hq]

theorem setState_heap (s : Lib) (r q : ThreadPtr) (st : State) :
    ((s.setState r st).heap q).tid = (s.heap q).tid ∧
      ((s.setState r st).heap q).pr = (s.heap q).pr ∧
        ((s.setState r st).heap q).jmpBuf = (s.heap q).jmpBuf := by
  by_cases hq : q = r
  · subst hq
    simp
  · simp [hq]

/-! ## Switching -/

theorem switchThreads_of_first (h : Wf [] s) (hr : s.running = some r) (hf : s.First i p rest) :
    switchThreads s = .ok (((s.setState r .ready).giveWay i p rest).pushReady
      (queueOf (s.heap r).pr) r) := by
  have hsize := h.one_lt_size hf (.inl (by simp [hr]))
  have hlen : s.threads.size - 1 ≠ s.blocked.length := by
    have h1 := h.size_eq
    have h2 : 0 < s.readyLength := Nat.pos_of_ne_zero fun h0 ↦
      hf.not_idle (Lib.readyLength_eq_zero.mp h0)
    rw [hr] at h1
    simp only [List.length_nil, Option.toList_some, List.length_cons] at h1
    omega
  have hf' : (s.setState r .ready).First i p rest := hf
  simp only [switchThreads, hr]
  rw [runThread_of_first hf' hsize]
  change Except.ok (if s.threads.size - 1 ≠ s.blocked.length then _ else _) = _
  rw [if_pos hlen, addToReady_some]
  congr 3
  exact (startQuantum_heap _ _ _).2.1.trans (setState_heap _ _ _ _).2.1

theorem switchThreads_of_idle (h : Wf [] s) (hr : s.running = some r) (hidle : s.Idle) :
    switchThreads s = .ok (startQuantum (s.setState r .ready) r) := by
  have hlen : s.threads.size - 1 = s.blocked.length := by
    have h1 := h.size_eq
    have h2 : s.readyLength = 0 := Lib.readyLength_eq_zero.mpr hidle
    rw [hr] at h1
    simp only [List.length_nil, Option.toList_some, List.length_cons] at h1
    omega
  have hrun : runThread (s.setState r .ready) = .ok (startQuantum (s.setState r .ready) r) :=
    runThread_of_idle hr hidle h.size_pos (h.begin_eq hr)
  simp only [switchThreads, hr, hrun]
  change Except.ok (if s.threads.size - 1 ≠ s.blocked.length then _ else _) = _
  rw [if_neg (by simpa using hlen)]

/-- After a switch with nothing ready, everything is where it was. -/
theorem Wf.switch_idle (h : Wf [] s) (hr : s.running = some r) :
    Wf [] (startQuantum (s.setState r .ready) r) := by
  have h1 := ((h.takeRunning hr).setState List.mem_cons_self .ready).setState
    List.mem_cons_self .running
  have h2 := (h1.putRunning rfl (by simp)).increaseQuantom r
  rw [← Lib.with_running hr]
  exact h2.congr

/-- A switch to the first ready thread leaves the former one at the end of its queue. -/
theorem Wf.switch_first (h : Wf [] s) (hr : s.running = some r) (hf : s.First i p rest) :
    Wf [] (((s.setState r .ready).giveWay i p rest).pushReady (queueOf (s.heap r).pr) r) := by
  have h1 := (h.takeRunning hr).setState List.mem_cons_self .ready
  have h2 : Wf [r] ((s.setState r .ready).giveWay i p rest) := Wf.giveWay h1 hf
  have hpr : r ≠ p := fun hrp ↦ (h2.not_placed List.mem_cons_self).1 (by simp [Lib.giveWay, hrp])
  have hst : (((s.setState r .ready).giveWay i p rest).heap r).state = .ready := by
    rw [Lib.giveWay, startQuantum_heap_of_ne hpr]
    simp [Lib.setReady]
  have hq : (((s.setState r .ready).giveWay i p rest).heap r).pr = (s.heap r).pr := by
    rw [Lib.giveWay, startQuantum_heap_of_ne hpr]
    simp [Lib.setReady]
  rw [← hq]
  exact h2.putReady hst

/-! ## The timer -/

theorem timeHandler_of_first (h : Wf [] s) (hr : s.running = some r) (hf : s.First i p rest) :
    timeHandler s = .ok (.jump, (((s.sigBlock.saveBuf r (.handler s.mask)).setState r
      .ready).giveWay i p rest).pushReady (queueOf (s.heap r).pr) r) := by
  have h0 : Wf [] (s.sigBlock.saveBuf r (.handler s.mask)) := (h.congr).saveBuf (by simp)
  have hpr : ((s.sigBlock.saveBuf r (.handler s.mask)).heap r).pr = (s.heap r).pr := by
    rw [Lib.saveBuf_heap_self]
    rfl
  rw [timeHandler, Lib.derefRunning, hr]
  change Except.map _ (switchThreads _) = _
  rw [switchThreads_of_first h0 hr (show Lib.First _ i p rest from hf), hpr]
  rfl

theorem timeHandler_of_idle (h : Wf [] s) (hr : s.running = some r) (hidle : s.Idle) :
    timeHandler s = .ok (.jump, startQuantum
      ((s.sigBlock.saveBuf r (.handler s.mask)).setState r .ready) r) := by
  have h0 : Wf [] (s.sigBlock.saveBuf r (.handler s.mask)) := (h.congr).saveBuf (by simp)
  rw [timeHandler, Lib.derefRunning, hr]
  change Except.map _ (switchThreads _) = _
  rw [switchThreads_of_idle h0 hr hidle]
  rfl

/-! ## Taking a thread out of a queue -/

@[simp] theorem ok_bind {α β : Type} (a : α) (f : α → Except Fault β) :
    ((Except.ok a : Except Fault α) >>= f) = f a := rfl

theorem Lib.derefRunning_of_some (hr : s.running = some r) : s.derefRunning = .ok r := by
  rw [Lib.derefRunning, hr]

theorem Lib.threadsAt_of_some (hp : s.threads[tid]? = some p) : s.threadsAt tid = .ok p := by
  simp [Lib.threadsAt, hp]

theorem Lib.threadsGet_of_some (hp : s.threads[tid]? = some p) : s.threadsGet tid = .ok p := by
  simp [Lib.threadsGet, hp]

theorem translatePriority_of_some (hp : s.threads[tid]? = some p) :
    translatePriority s tid = .ok (queueOf (s.heap p).pr) := by
  rw [translatePriority, Lib.threadsAt_of_some hp]
  change Except.ok _ = _
  cases (s.heap p).pr <;> rfl

theorem removeFromReady_of_mem (hp : s.threads[tid]? = some p)
    (hmem : p ∈ s.ready (queueOf (s.heap p).pr)) : removeFromReady s tid =
      .ok (success, s.setReady (queueOf (s.heap p).pr)
        ((s.ready (queueOf (s.heap p).pr)).erase p)) := by
  rw [removeFromReady, translatePriority_of_some hp, Lib.threadsGet_of_some hp]
  change (if p ∈ s.ready _ then _ else _) = _
  rw [if_pos hmem]
  rfl

theorem removeFromReady_of_notMem (hp : s.threads[tid]? = some p)
    (hmem : p ∉ s.ready (queueOf (s.heap p).pr)) : removeFromReady s tid = .ok (fail, s) := by
  rw [removeFromReady, translatePriority_of_some hp, Lib.threadsGet_of_some hp]
  change (if p ∈ s.ready _ then _ else _) = _
  rw [if_neg hmem]
  rfl

/-- Taking a thread out of `blocked` where it may or may not be. -/
theorem removeFromBlock_of_some (hp : s.threads[tid]? = some p) :
    removeFromBlock s tid = .ok { s with blocked := s.blocked.erase p } := by
  rw [removeFromBlock]
  split
  · rename_i hb
    have he : s.blocked.erase p = s.blocked := by rw [hb]; rfl
    rw [he]
  · rw [Lib.threadsAt_of_some hp]
    rfl

theorem removeFromBlock_of_notMem (hp : s.threads[tid]? = some p) (hmem : p ∉ s.blocked) :
    removeFromBlock s tid = .ok s := by
  rw [removeFromBlock_of_some hp, List.erase_of_not_mem hmem]

/-- A thread that was just put at the end of a queue comes out again. -/
theorem Lib.pushReady_erase (hp : p ∉ s.ready i) :
    (s.pushReady i p).setReady i (((s.pushReady i p).ready i).erase p) = s := by
  have h1 : ((s.pushReady i p).ready i).erase p = s.ready i := by
    rw [Lib.pushReady, Lib.setReady_ready_self, List.erase_append_right _ hp]
    simp
  rw [h1, Lib.pushReady, Lib.setReady, Lib.setReady]
  simp

/-! ## Where a live thread is -/

/-- A live thread is running, ready or blocked, and its state tells which. -/
theorem Wf.live_cases (h : Wf [] s) (hp : s.Live p) :
    s.running = some p ∨ p ∈ s.ready (queueOf (s.heap p).pr) ∨ p ∈ s.blocked := by
  have h1 := h.mem_everyone_iff.mpr hp
  have hready : ∀ i, p ∈ s.ready i → p ∈ s.ready (queueOf (s.heap p).pr) := fun i hi ↦ by
    rwa [(h.ready i p hi).2]
  simp only [everyone, List.nil_append, List.mem_append, Option.mem_toList, or_assoc] at h1
  rcases h1 with h1 | h1 | h1 | h1 | h1
  · exact .inl h1
  · exact .inr (.inl (hready _ h1))
  · exact .inr (.inl (hready _ h1))
  · exact .inr (.inl (hready _ h1))
  · exact .inr (.inr h1)

/-- A container holds live threads only. -/
theorem Wf.live_of_running (h : Wf fl s) (hr : s.running = some r) : s.Live r :=
  h.mem_everyone_iff.mp (by simp [everyone, hr])

theorem Wf.live_of_blocked (h : Wf fl s) (hp : p ∈ s.blocked) : s.Live p :=
  h.mem_everyone_iff.mp (by simp [everyone, hp])

theorem Wf.live_of_ready (h : Wf fl s) (hp : p ∈ s.ready i) : s.Live p := by
  refine h.live_iff.mpr ?_
  have h1 := count_le_readyCount s i p
  have h2 : 0 < (s.ready i).count p := List.count_pos_iff.mpr hp
  rw [occ]
  omega

/-- The running thread is nowhere else. -/
theorem Wf.running_alone (h : Wf [] s) (hr : s.running = some r) :
    (∀ i, r ∉ s.ready i) ∧ r ∉ s.blocked :=
  ((h.takeRunning hr).not_placed List.mem_cons_self).2

/-- The id of a thread that is not running is not the running thread's. -/
theorem Wf.tid_ne_running (h : Wf [] s) (hr : s.running = some r) (hp : s.threads[tid]? = some p)
    (hne : s.running ≠ some p) : tid ≠ (s.heap r).tid := by
  intro he
  have hlive : s.threads[(s.heap r).tid]? = some r := h.live_of_running hr
  rw [← he, hp] at hlive
  exact hne (hr.trans hlive.symm)

/-- A blocked thread is nowhere else. -/
theorem Wf.blocked_alone (h : Wf [] s) (hp : p ∈ s.blocked) :
    s.running ≠ some p ∧ ∀ i, p ∉ s.ready i :=
  ⟨((h.takeBlocked hp).not_placed List.mem_cons_self).1,
    ((h.takeBlocked hp).not_placed List.mem_cons_self).2.1⟩

/-- When a thread other than the main thread runs, the main thread is ready. -/
theorem Wf.exists_first (h : Wf [] s) (hr : s.running = some r)
    (hne : (s.heap r).tid ≠ mainThread) : ∃ i p rest, s.First i p rest := by
  refine (idle_or_first s).resolve_left fun hidle ↦ ?_
  obtain ⟨m, hm1, hm2, -⟩ := h.main
  rcases h.live_cases (h.live_of_threads hm1) with h1 | h1 | h1
  · cases hr.symm.trans h1
    exact hne (h.key _ _ hm1)
  · rw [hidle] at h1
    exact absurd h1 List.not_mem_nil
  · exact hm2 h1

/-! ## Suspending -/

theorem suspendRunning_of_first (h : Wf [] s) (hr : s.running = some r) (hf : s.First i p rest) :
    suspendRunning s = .ok (.jump, ((s.setState r .block).pushBlocked r).giveWay i p rest) := by
  have hsize := h.one_lt_size hf (.inl (by simp [hr]))
  have hf' : Lib.First { (s.setState r .block).pushBlocked r with running := none } i p rest := hf
  rw [suspendRunning, Lib.derefRunning, hr]
  change Except.map _ (runThread _) = _
  rw [runThread_of_first hf' hsize]
  rfl

theorem Wf.suspendRunning (h : Wf [] s) (hr : s.running = some r)
    (hne : (s.heap r).tid ≠ mainThread) (hf : s.First i p rest) :
    Wf [] (((s.setState r .block).pushBlocked r).giveWay i p rest) := by
  have h1 := (h.takeRunning hr).setState List.mem_cons_self .block
  have h2 := h1.putBlocked (by simp) (by simpa using hne)
  exact Wf.giveWay h2 hf

theorem suspendBody_of_running (h : Wf [] s) (hr : s.running = some r)
    (htid : (s.heap r).tid = tid) (hne : tid ≠ mainThread) (hf : s.First i p rest) :
    suspendBody s tid =
      .ok (.jump, (((s.sigBlock.saveBuf r .suspend).setState r .block).pushBlocked r).giveWay
        i p rest) := by
  have hr' : s.sigBlock.running = some r := hr
  have htid' : tid = (s.sigBlock.heap r).tid := htid.symm
  have hw : Wf [] (s.sigBlock.saveBuf r .suspend) := (h.congr).saveBuf fun h0 ↦
    absurd (htid.symm.trans h0) hne
  rw [suspendBody, Lib.derefRunning_of_some hr', ok_bind, if_pos htid',
    suspendRunning_of_first hw hr (show Lib.First _ i p rest from hf)]

theorem Wf.suspendBody_running (h : Wf [] s) (hr : s.running = some r)
    (hne : (s.heap r).tid ≠ mainThread) (hf : s.First i p rest) :
    Wf [] ((((s.sigBlock.saveBuf r .suspend).setState r .block).pushBlocked r).giveWay
      i p rest) := by
  have hw : Wf [] (s.sigBlock.saveBuf r .suspend) := (h.congr).saveBuf fun h0 ↦ absurd h0 hne
  refine hw.suspendRunning hr ?_ hf
  rw [Lib.saveBuf_heap_self]
  exact hne

/-- Suspending another thread that is ready moves it to the end of `blocked`. -/
theorem suspendBody_of_ready (h : Wf [] s) (hr : s.running = some r) (hp : s.threads[tid]? = some p)
    (hmem : p ∈ s.ready (queueOf (s.heap p).pr)) :
    suspendBody s tid = .ok (.ret success,
      (((s.sigBlock.setReady (queueOf (s.heap p).pr) ((s.ready (queueOf (s.heap p).pr)).erase
        p)).setState p .block).pushBlocked p).sigUnblock) := by
  have hr' : s.sigBlock.running = some r := hr
  have hp' : s.sigBlock.threads[tid]? = some p := hp
  have hkey : (s.sigBlock.heap p).tid = tid := h.key _ _ hp
  have hne : tid ≠ (s.sigBlock.heap r).tid :=
    h.tid_ne_running hr hp fun he ↦ (h.running_alone he).1 _ hmem
  rw [suspendBody, Lib.derefRunning_of_some hr', ok_bind, if_neg hne, Lib.threadsGet_of_some hp',
    ok_bind, hkey, removeFromReady_of_mem hp' hmem, ok_bind]
  change (if success = fail then _ else _) = _
  rw [if_neg (by decide), Lib.threadsGet_of_some (by exact hp), ok_bind]
  rfl

theorem Wf.suspendBody_ready (h : Wf [] s) (hp : s.threads[tid]? = some p) (hne : tid ≠ mainThread)
    (hmem : p ∈ s.ready (queueOf (s.heap p).pr)) :
    Wf [] (((s.sigBlock.setReady (queueOf (s.heap p).pr) ((s.ready (queueOf (s.heap p).pr)).erase
      p)).setState p .block).pushBlocked p).sigUnblock := by
  have h1 := (h.takeReady hmem).setState List.mem_cons_self .block
  have h2 := h1.putBlocked (by simp) (by
    rw [Lib.setState_heap_self]
    exact fun h0 ↦ hne ((h.key _ _ hp).symm.trans h0))
  exact h2.congr

/-- Suspending a thread that is blocked fails. -/
theorem suspendBody_of_blocked (h : Wf [] s) (hr : s.running = some r)
    (hp : s.threads[tid]? = some p) (hmem : p ∈ s.blocked) :
    suspendBody s tid = .ok (.ret fail, s.sigBlock.sigUnblock) := by
  have hr' : s.sigBlock.running = some r := hr
  have hp' : s.sigBlock.threads[tid]? = some p := hp
  have hkey : (s.sigBlock.heap p).tid = tid := h.key _ _ hp
  have hne : tid ≠ (s.sigBlock.heap r).tid :=
    h.tid_ne_running hr hp fun he ↦ (h.running_alone he).2 hmem
  rw [suspendBody, Lib.derefRunning_of_some hr', ok_bind, if_neg hne, Lib.threadsGet_of_some hp',
    ok_bind, hkey, removeFromReady_of_notMem hp' ((h.blocked_alone hmem).2 _), ok_bind]
  rfl

/-! ## Resuming -/

/-- The loop that looks for a thread in `blocked` finds it. -/
theorem getElem?_idxOf_of_mem {l : List ThreadPtr} (hp : p ∈ l) : l[l.idxOf p]? = some p := by
  rw [List.getElem?_eq_getElem (List.idxOf_lt_length_of_mem hp), List.getElem_idxOf]

/-- Resuming a blocked thread moves it to the end of its queue. -/
theorem resumeBody_of_blocked (hp : s.threads[tid]? = some p) (hmem : p ∈ s.blocked) :
    resumeBody s tid = .ok (.ret success, (({ s with blocked := s.blocked.erase p }.setState p
      .ready).pushReady (queueOf (s.heap p).pr) p).sigUnblock) := by
  have hp' : s.sigBlock.threads[tid]? = some p := hp
  have hpr : (((s.sigBlock).setState p .ready).heap p).pr = (s.heap p).pr := by
    rw [Lib.setState_heap_self]
    rfl
  rw [resumeBody, Lib.threadsGet_of_some hp', ok_bind,
    show s.sigBlock.blocked = s.blocked from rfl, getElem?_idxOf_of_mem hmem]
  change (removeFromBlock (addToReady (s.sigBlock.setState p .ready) (some p)) tid >>= _) = _
  rw [addToReady_some, hpr, removeFromBlock_of_some (by exact hp), ok_bind]
  rfl

theorem Wf.resumeBody_blocked (h : Wf [] s) (hmem : p ∈ s.blocked) :
    Wf [] (({ s with blocked := s.blocked.erase p }.setState p
      .ready).pushReady (queueOf (s.heap p).pr) p).sigUnblock := by
  have h1 := (h.takeBlocked hmem).setState List.mem_cons_self .ready
  have h2 := h1.putReady (by simp)
  rw [Lib.setState_heap_self] at h2
  exact h2.congr

/-! ## Terminating -/

/-- The running thread terminates itself: the next one runs, and it is gone. -/
theorem terminateBody_of_running (h : Wf [] s) (hr : s.running = some r)
    (htid : (s.heap r).tid = tid) (hf : s.First i p rest) :
    terminateBody s tid = .ok (.jump, { (s.sigBlock.setState r .ready).giveWay i p rest with
      threads := s.threads.erase tid }) := by
  have hr' : s.sigBlock.running = some r := hr
  have htid' : tid = (s.sigBlock.heap r).tid := htid.symm
  have hw : Wf [] s.sigBlock := h.congr
  have hlive : s.threads[tid]? = some r := htid ▸ h.live_of_running hr
  have h1 : Wf [r] ((s.sigBlock.setState r .ready).giveWay i p rest) :=
    Wf.giveWay ((hw.takeRunning hr).setState List.mem_cons_self .ready) hf
  obtain ⟨-, h2, h3⟩ := h1.not_placed List.mem_cons_self
  set t := (s.sigBlock.setState r .ready).giveWay i p rest with ht
  have hheap : (t.heap r).tid = tid ∧ (t.heap r).pr = (s.heap r).pr :=
    ⟨((startQuantum_heap _ _ _).1.trans (setState_heap _ _ _ _).1).trans htid,
      (startQuantum_heap _ _ _).2.1.trans (setState_heap _ _ _ _).2.1⟩
  have hpush : (t.pushReady (queueOf (s.heap r).pr) r).heap = t.heap := rfl
  have hmem : r ∈ (t.pushReady (queueOf (s.heap r).pr) r).ready (queueOf (s.heap r).pr) := by
    simp [Lib.pushReady]
  rw [terminateBody, Lib.derefRunning_of_some hr', ok_bind, if_pos htid',
    switchThreads_of_first hw hr (show Lib.First _ i p rest from hf), ok_bind,
    show (s.sigBlock.heap r).pr = (s.heap r).pr from rfl, ← ht,
    removeFromReady_of_mem (p := r) (by exact hlive) (by rw [hpush, hheap.2]; exact hmem), ok_bind]
  simp only [hpush, hheap.2]
  rw [Lib.pushReady_erase (h2 _), removeFromBlock_of_notMem (p := r) (by exact hlive) h3, ok_bind,
    hheap.1]
  rfl

theorem Wf.terminateBody_running (h : Wf [] s) (hr : s.running = some r)
    (htid : (s.heap r).tid = tid) (hne : tid ≠ mainThread) (hf : s.First i p rest) :
    Wf [] { (s.sigBlock.setState r .ready).giveWay i p rest with
      threads := s.threads.erase tid } := by
  have hw : Wf [] s.sigBlock := h.congr
  have h1 : Wf [r] ((s.sigBlock.setState r .ready).giveWay i p rest) :=
    Wf.giveWay ((hw.takeRunning hr).setState List.mem_cons_self .ready) hf
  have h2 : (((s.sigBlock.setState r .ready).giveWay i p rest).heap r).tid = tid :=
    ((startQuantum_heap _ _ _).1.trans (setState_heap _ _ _ _).1).trans htid
  have h3 := h1.drop (by rw [h2]; exact hne)
  rw [h2] at h3
  exact h3

/-- A thread other than the running one is taken out of its queue. -/
theorem terminateBody_of_ready (h : Wf [] s) (hr : s.running = some r)
    (hp : s.threads[tid]? = some p) (hmem : p ∈ s.ready (queueOf (s.heap p).pr)) :
    terminateBody s tid = .ok (.ret success, { s.sigBlock.setReady (queueOf (s.heap p).pr)
      ((s.ready (queueOf (s.heap p).pr)).erase p) with
        threads := s.threads.erase tid }.sigUnblock) := by
  have hr' : s.sigBlock.running = some r := hr
  have hp' : s.sigBlock.threads[tid]? = some p := hp
  have hne : tid ≠ (s.sigBlock.heap r).tid :=
    h.tid_ne_running hr hp fun he ↦ (h.running_alone he).1 _ hmem
  have hst : (s.sigBlock.heap p).state = .ready := (h.ready _ p hmem).1
  rw [terminateBody, Lib.derefRunning_of_some hr', ok_bind, if_neg hne, Lib.threadsAt_of_some hp',
    ok_bind, if_pos hst, removeFromReady_of_mem hp' hmem]
  rfl

theorem Wf.terminateBody_ready (h : Wf [] s) (hp : s.threads[tid]? = some p)
    (hne : tid ≠ mainThread) (hmem : p ∈ s.ready (queueOf (s.heap p).pr)) :
    Wf [] ({ s.sigBlock.setReady (queueOf (s.heap p).pr)
      ((s.ready (queueOf (s.heap p).pr)).erase p) with
        threads := s.threads.erase tid } : Lib).sigUnblock := by
  have hkey := h.key _ _ hp
  have h1 := (h.takeReady hmem).drop (by exact fun h0 ↦ hne (hkey.symm.trans h0))
  rw [show ((s.setReady _ _).heap p).tid = tid from hkey] at h1
  exact h1.congr

/-- A blocked thread is taken out of `blocked`. -/
theorem terminateBody_of_blocked (h : Wf [] s) (hr : s.running = some r)
    (hp : s.threads[tid]? = some p) (hmem : p ∈ s.blocked) :
    terminateBody s tid = .ok (.ret success, { s.sigBlock with
      blocked := s.blocked.erase p
      threads := s.threads.erase tid }.sigUnblock) := by
  have hr' : s.sigBlock.running = some r := hr
  have hp' : s.sigBlock.threads[tid]? = some p := hp
  have hne : tid ≠ (s.sigBlock.heap r).tid :=
    h.tid_ne_running hr hp fun he ↦ (h.running_alone he).2 hmem
  have hst : (s.sigBlock.heap p).state ≠ .ready := by
    rw [show (s.sigBlock.heap p).state = .block from h.blocked p hmem]
    decide
  rw [terminateBody, Lib.derefRunning_of_some hr', ok_bind, if_neg hne, Lib.threadsAt_of_some hp',
    ok_bind, if_neg hst, removeFromBlock_of_some hp', ok_bind]
  rfl

theorem Wf.terminateBody_blocked (h : Wf [] s) (hp : s.threads[tid]? = some p)
    (hne : tid ≠ mainThread) (hmem : p ∈ s.blocked) :
    Wf [] ({ s.sigBlock with
      blocked := s.blocked.erase p
      threads := s.threads.erase tid } : Lib).sigUnblock := by
  have hkey := h.key _ _ hp
  have h1 := (h.takeBlocked hmem).drop (by exact fun h0 ↦ hne (hkey.symm.trans h0))
  rw [show ({ s with blocked := s.blocked.erase p } : Lib).heap p = s.heap p from rfl, hkey] at h1
  exact h1.congr

/-! ## Spawning -/

theorem getNextIdFrom_eq_firstGap (i : ℤ) (l : List ℤ) : getNextIdFrom i l = firstGap i l := by
  induction l generalizing i with
  | nil => rfl
  | cons k ks ih =>
    rw [getNextIdFrom, firstGap, ih]
    by_cases hk : k = i
    · simp [hk]
    · simp [hk]

/-- **`getNextId` finds the least id that is not in use.** -/
theorem Wf.isLeast_getNextId (h : Wf fl s) : IsLeast {k | 0 ≤ k ∧ k ∉ s.threads} (getNextId s) := by
  have hsorted : s.threads.keys.Pairwise (· < ·) :=
    s.threads.ordered_keys.imp fun hlt ↦ Std.compare_eq_lt.mp hlt
  have hnn : ∀ k ∈ s.threads.keys, 0 ≤ k := by
    intro k hk
    rw [Std.TreeMap.mem_keys, Std.TreeMap.mem_iff_isSome_getElem?] at hk
    obtain ⟨p, hp⟩ := Option.isSome_iff_exists.mp hk
    exact h.nonneg k p hp
  have hleast := isLeast_firstGap hsorted hnn
  simp only [Std.TreeMap.mem_keys] at hleast
  rwa [getNextId, getNextIdFrom_eq_firstGap]

/-- A new thread at the end of the queue of its priority. -/
def Lib.spawned (s : Lib) (pr : Priority) : Lib :=
  Lib.pushReady { s with
    heap := Function.update s.heap s.brk (Thread.new (getNextId s) pr .ready)
    brk := s.brk + 1
    threads := s.threads.insertIfNew (getNextId s) s.brk } (queueOf pr) s.brk

theorem spawnBody_eq (hr : s.running = some r) (pr : Priority) :
    spawnBody s pr = .ok (.ret (getNextId s), (s.sigBlock.spawned pr).sigUnblock) := by
  have hrun : s.sigBlock.running.isNone = false := by
    rw [show s.sigBlock.running = some r from hr, Option.isNone_some]
  rw [spawnBody]
  simp only [hrun, Bool.false_eq_true, if_false, addToReady_some, Function.update_self]
  rfl

theorem Wf.spawned (h : Wf [] s) (pr : Priority) : Wf [] (s.spawned pr) := by
  have h1 := h.create h.isLeast_getNextId.1.2 h.isLeast_getNextId.1.1 pr .ready
  have h2 := h1.putReady (by simp [Thread.new])
  simp only [Function.update_self] at h2
  exact h2

/-! ## After a `loadBuf` -/

theorem land_of_entry (hr : s.running = some r) (hp : (s.heap r).jmpBuf.place = .entry) :
    land s = .ok (.user, { s with mask := (s.heap r).jmpBuf.savedMask }) := by
  rw [land, Lib.derefRunning_of_some hr, ok_bind]
  simp only [hp]
  rfl

theorem land_of_handler {m : Bool} (hr : s.running = some r)
    (hp : (s.heap r).jmpBuf.place = .handler m) : land s = .ok (.user, { s with mask := m }) := by
  rw [land, Lib.derefRunning_of_some hr, ok_bind]
  simp only [hp]
  rfl

/-- A thread whose context was saved in `uthread_suspend` blocks itself again. -/
theorem land_of_suspend (h : Wf [] s) (hr : s.running = some r)
    (hp : (s.heap r).jmpBuf.place = .suspend) (hf : s.First i p rest) :
    land s = .ok (.jump, (({ s with mask := (s.heap r).jmpBuf.savedMask }.setState r
      .block).pushBlocked r).giveWay i p rest) := by
  rw [land, Lib.derefRunning_of_some hr, ok_bind]
  simp only [hp]
  exact suspendRunning_of_first h.congr hr hf

/-- Only a thread other than the main thread has such a context. -/
theorem Wf.tid_ne_main_of_suspend (h : Wf fl s) (hr : s.Live r)
    (hp : (s.heap r).jmpBuf.place = .suspend) : (s.heap r).tid ≠ mainThread := by
  intro h0
  obtain ⟨m, hm1, -, hm3⟩ := h.main
  rw [Lib.Live, h0, hm1] at hr
  cases hr
  exact hm3 hp

end Uthreads
