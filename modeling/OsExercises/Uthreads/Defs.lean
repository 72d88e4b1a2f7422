import OsExercises.ForMathlib.CLib
import Mathlib.Data.Fin.VecNotation
import Mathlib.Logic.Function.Basic

/-!
# The user-level threads library

The state and the functions of `ex2/uthreads.cpp` and `ex2/Thread.cpp`.

A `Thread*` is an address in `Lib.heap`; the library never deletes a thread, so an address stays
good for ever, and an id that is reused belongs to a new address.  `nullptr` is `none`.  A map
lookup that finds nothing (`map::at` throws, `operator[]` inserts a null pointer) and the use of a
null pointer end a call with a `Fault`.

`saveBuf` and `loadBuf` are a `sigsetjmp` and a `siglongjmp`.  What matters about a saved context is
the place it continues from, a `SavePoint`, and the signal mask saved with it.  A call that ends in
`running->loadBuf()` never returns to its caller: that is `Exit.jump`, and `land` is what happens
next, at the place the running thread's context was saved.

The two counters of quantums, `_quantom` of a thread and `_quantum_counter`, are kept as the number
of times they were increased.  The library reads them through `getQuantom` and
`uthread_get_total_quantums`, and these return the `int` that so many `++` make of zero.

Every call of the library but the queries checks its arguments before it blocks the timer signal and
does its work after that, so each is written as a `…Check` and a `…Body`, and `call` puts the two
together.
-/

set_option autoImplicit false

namespace Uthreads

/-! ## Threads -/

/-- `enum Priority`. -/
inductive Priority
  | red
  | orange
  | green
  deriving DecidableEq, Repr

/-- `enum State`. -/
inductive State
  | ready
  | running
  | block
  deriving DecidableEq, Repr

/-- The place a saved context continues from. -/
inductive SavePoint
  /-- Nothing was saved yet: the constructor made the context start at the thread's function. -/
  | entry
  /-- The `saveBuf` in `timeHandler`, with the mask that the handler's return restores. -/
  | handler (interrupted : Bool)
  /-- The `saveBuf` in `uthread_suspend`. -/
  | suspend
  deriving DecidableEq, Repr

/-- A `sigjmp_buf`: where to go on, and whether the timer signal was blocked when it was saved. -/
structure JmpBuf where
  /-- Where `loadBuf` goes on. -/
  place : SavePoint
  /-- The saved mask: is `SIGVTALRM` blocked? -/
  savedMask : Bool
  deriving DecidableEq, Repr

/-- A `Thread` object. -/
structure Thread where
  /-- The id. -/
  tid : ℤ
  /-- The priority. -/
  pr : Priority
  /-- How often `_quantom` was increased. -/
  quantom : ℕ
  /-- The state. -/
  state : State
  /-- The saved context. -/
  jmpBuf : JmpBuf
  deriving DecidableEq, Repr

/-- The constructor.  The context is set to the entry point with an empty mask. -/
def Thread.new (tid : ℤ) (pr : Priority) (state : State) : Thread :=
  ⟨tid, pr, 0, state, ⟨.entry, false⟩⟩

/-- `getQuantom`: the value of `_quantom`. -/
def Thread.getQuantom (t : Thread) : ℤ := CLib.toInt32 t.quantom

/-- A `Thread*` that is not null. -/
abbrev ThreadPtr := ℕ

/-! ## The globals -/

/-- `NUM_OF_QUEUE`. -/
abbrev numOfQueue : ℕ := 3

/-- `RED_Q`. -/
def redQ : Fin numOfQueue := 0

/-- `ORANGE_Q`. -/
def orangeQ : Fin numOfQueue := 1

/-- `GREEN_Q`. -/
def greenQ : Fin numOfQueue := 2

/-- `FAIL`. -/
def fail : ℤ := -1

/-- `SUCCESS`. -/
def success : ℤ := 0

/-- `MAIN_THREAD`. -/
def mainThread : ℤ := 0

/-- The most threads there may be: the constant in `uthread_spawn`. -/
def maxThreads : ℕ := 100

/-- The static variables of the library, the threads they point to, and the signal mask. -/
structure Lib where
  /-- The threads made so far. -/
  heap : ThreadPtr → Thread
  /-- The next free address. -/
  brk : ThreadPtr
  /-- The ready queues. -/
  ready : Fin numOfQueue → List ThreadPtr
  /-- The blocked threads. -/
  blocked : List ThreadPtr
  /-- The running thread. -/
  running : Option ThreadPtr
  /-- `_threads`: all threads by their id. -/
  threads : Std.TreeMap ℤ ThreadPtr
  /-- How often `_quantum_counter` was increased. -/
  quantumCounter : ℕ
  /-- Is `SIGVTALRM` blocked? -/
  mask : Bool

/-- How a call can go wrong. -/
inductive Fault
  /-- `at` was called with a key or a position that is not there. -/
  | outOfRange
  /-- A null `Thread*` was used.  This includes the one that `_threads[tid]` inserts for a missing
  id: each use of `operator[]` in the library goes on to dereference it or to look for it in
  `blocked`, where it is not. -/
  | nullThread
  deriving DecidableEq, Repr

/-- How a call ends that does not go wrong. -/
inductive Exit
  /-- It returns a value to its caller. -/
  | ret (v : ℤ)
  /-- It ends in `running->loadBuf()`. -/
  | jump
  /-- It ends the process. -/
  | exited
  /-- Control is back in a thread's own code, and no library call returned there. -/
  | user
  deriving DecidableEq, Repr

namespace Lib

variable (s : Lib)

/-- Change a thread in place. -/
def modify (p : ThreadPtr) (f : Thread → Thread) : Lib :=
  { s with heap := Function.update s.heap p (f (s.heap p)) }

/-- `setState`. -/
def setState (p : ThreadPtr) (st : State) : Lib := s.modify p fun t ↦ { t with state := st }

/-- `increaseQuantom`. -/
def increaseQuantom (p : ThreadPtr) : Lib := s.modify p fun t ↦ { t with quantom := t.quantom + 1 }

/-- `saveBuf`, called at the given place. -/
def saveBuf (p : ThreadPtr) (place : SavePoint) : Lib :=
  s.modify p fun t ↦ { t with jmpBuf := ⟨place, s.mask⟩ }

/-- Replace one ready queue. -/
def setReady (i : Fin numOfQueue) (q : List ThreadPtr) : Lib :=
  { s with ready := Function.update s.ready i q }

/-- `ready[i].insert(ready[i].end(), p)`. -/
def pushReady (i : Fin numOfQueue) (p : ThreadPtr) : Lib := s.setReady i (s.ready i ++ [p])

/-- `blocked.push_back(p)`. -/
def pushBlocked (p : ThreadPtr) : Lib := { s with blocked := s.blocked ++ [p] }

/-- `_threads.at(tid)`. -/
def threadsAt (tid : ℤ) : Except Fault ThreadPtr :=
  match s.threads[tid]? with
  | some p => .ok p
  | none => .error .outOfRange

/-- `_threads[tid]`. -/
def threadsGet (tid : ℤ) : Except Fault ThreadPtr :=
  match s.threads[tid]? with
  | some p => .ok p
  | none => .error .nullThread

/-- The running thread, where the code dereferences it. -/
def derefRunning : Except Fault ThreadPtr :=
  match s.running with
  | some p => .ok p
  | none => .error .nullThread

/-- `sigprocmask(SIG_BLOCK, …)`. -/
def sigBlock : Lib := { s with mask := true }

/-- `sigprocmask(SIG_UNBLOCK, …)`. -/
def sigUnblock : Lib := { s with mask := false }

variable (p q : ThreadPtr) (st : State) (place : SavePoint)

@[simp] theorem setState_heap_self :
    (s.setState p st).heap p = { s.heap p with state := st } := by simp [setState, modify]

@[simp] theorem setState_heap_of_ne {p q : ThreadPtr} (h : q ≠ p) :
    (s.setState p st).heap q = s.heap q := by simp [setState, modify, h]

@[simp] theorem increaseQuantom_heap_self : (s.increaseQuantom p).heap p =
    { s.heap p with quantom := (s.heap p).quantom + 1 } := by simp [increaseQuantom, modify]

@[simp] theorem increaseQuantom_heap_of_ne {p q : ThreadPtr} (h : q ≠ p) :
    (s.increaseQuantom p).heap q = s.heap q := by simp [increaseQuantom, modify, h]

@[simp] theorem saveBuf_heap_self : (s.saveBuf p place).heap p =
    { s.heap p with jmpBuf := ⟨place, s.mask⟩ } := by simp [saveBuf, modify]

@[simp] theorem saveBuf_heap_of_ne {p q : ThreadPtr} (h : q ≠ p) :
    (s.saveBuf p place).heap q = s.heap q := by simp [saveBuf, modify, h]

@[simp] theorem setReady_ready_self (i : Fin numOfQueue) (l : List ThreadPtr) :
    (s.setReady i l).ready i = l := by simp [setReady]

@[simp] theorem setReady_ready_of_ne {i j : Fin numOfQueue} (l : List ThreadPtr) (h : j ≠ i) :
    (s.setReady i l).ready j = s.ready j := by simp [setReady, h]

end Lib

/-! ## Choosing the next thread -/

/-- The loop of `getNextId`, over the keys that are left. -/
def getNextIdFrom (idToReturn : ℤ) : List ℤ → ℤ
  | [] => idToReturn
  | k :: ks => if k ≠ idToReturn then idToReturn else getNextIdFrom (idToReturn + 1) ks

/-- The next id: the first number that the sorted keys of `_threads` skip. -/
def getNextId (s : Lib) : ℤ := getNextIdFrom 0 s.threads.keys

/-- Add a thread to the end of the queue of its priority. -/
def addToReady (s : Lib) : Option ThreadPtr → Lib
  | none => s
  | some th =>
    match (s.heap th).pr with
    | .red => s.pushReady redQ th
    | .orange => s.pushReady orangeQ th
    | .green => s.pushReady greenQ th

/-- Take the first thread out of a queue. -/
def getReady (s : Lib) (pr : Fin numOfQueue) : Option ThreadPtr × Lib :=
  ((s.ready pr).head?, s.setReady pr (s.ready pr).tail)

/-- Take the first thread out of the first queue that has one.  When there is only one thread in
all, that one is returned and stays where it is. -/
def popReady (s : Lib) : Option ThreadPtr × Lib :=
  if s.threads.size > 1 then
    if s.ready redQ ≠ [] then getReady s redQ
    else if s.ready orangeQ ≠ [] then getReady s orangeQ
    else if s.ready greenQ ≠ [] then getReady s greenQ
    else (none, s)
  else if s.threads.size = 1 then (s.threads.toList.head?.map Prod.snd, s)
  else (none, s)

/-- The second half of `runThread`: mark the thread as running and count the quantum. -/
def startQuantum (s : Lib) (r : ThreadPtr) : Lib :=
  { (s.setState r .running).increaseQuantom r with quantumCounter := s.quantumCounter + 1 }

/-- Run the next thread, or go on with the running one if no other can run. -/
def runThread (s : Lib) : Except Fault Lib := do
  let (tmp, s) := popReady s
  let s := if tmp.isSome then { s with running := tmp } else s
  let r ← s.derefRunning
  return startQuantum s r

/-- The queue of the thread with the given id. -/
def translatePriority (s : Lib) (tid : ℤ) : Except Fault (Fin numOfQueue) := do
  let p ← s.threadsAt tid
  return if (s.heap p).pr = .red then 0 else if (s.heap p).pr = .orange then 1 else 2

/-- Take a thread out of the queue of its priority, if it is there. -/
def removeFromReady (s : Lib) (tid : ℤ) : Except Fault (ℤ × Lib) := do
  let pr ← translatePriority s tid
  let p ← s.threadsGet tid
  if p ∈ s.ready pr then
    return (success, s.setReady pr ((s.ready pr).erase p))
  else
    return (fail, s)

/-- Take a thread out of `blocked`, if it is there.  The id is looked up in the loop, so an unknown
id only matters when there is something to compare with. -/
def removeFromBlock (s : Lib) (tid : ℤ) : Except Fault Lib :=
  if s.blocked = [] then .ok s
  else do
    let p ← s.threadsAt tid
    return { s with blocked := s.blocked.erase p }

/-- Switch from the running thread to the next in line. -/
def switchThreads (s : Lib) : Except Fault Lib := do
  let tmp := s.running
  let s := match tmp with
    | some r => s.setState r .ready
    | none => s
  let s ← runThread s
  return if s.threads.size - 1 ≠ s.blocked.length then addToReady s tmp else s

/-- The timer's handler, from the signal's delivery to its `loadBuf`.  The kernel blocks the signal
while the handler runs. -/
def timeHandler (s : Lib) : Except Fault (Exit × Lib) := do
  let r ← s.derefRunning
  let s ← switchThreads (s.sigBlock.saveBuf r (.handler s.mask))
  return (.jump, s)

/-! ## The library functions -/

/-- The library before `uthread_init`. -/
def Lib.fresh : Lib where
  heap := fun _ ↦ Thread.new 0 .orange .ready
  brk := 0
  ready := fun _ ↦ []
  blocked := []
  running := none
  threads := ∅
  quantumCounter := 0
  mask := false

/-- `uthread_init`, where the system calls succeed. -/
def uthreadInit (s : Lib) (quantumUsecs : ℤ) : ℤ × Lib :=
  if quantumUsecs ≤ 0 then (fail, s)
  else
    let mainTh := s.brk
    let s := { s with
      heap := Function.update s.heap mainTh (Thread.new 0 .orange .ready)
      brk := mainTh + 1
      threads := s.threads.insertIfNew 0 mainTh
      running := some mainTh }
    (success, startQuantum s mainTh)

/-- The check of `uthread_spawn`: the early return, if it is taken. -/
def spawnCheck (s : Lib) : Option Exit :=
  if s.threads.size = maxThreads then some (.ret fail) else none

/-- `uthread_spawn` after the check. -/
def spawnBody (s : Lib) (pr : Priority) : Except Fault (Exit × Lib) := do
  let s := s.sigBlock
  let tid := getNextId s
  let th := s.brk
  let s := { s with
    heap := Function.update s.heap th (Thread.new tid pr .ready)
    brk := th + 1
    threads := s.threads.insertIfNew tid th }
  let s ← if s.running.isNone then runThread s else pure (addToReady s (some th))
  return (.ret tid, s.sigUnblock)

/-- The checks of `uthread_terminate`. -/
def terminateCheck (s : Lib) (tid : ℤ) : Option Exit :=
  if tid = mainThread then some .exited
  else if tid ∉ s.threads then some (.ret fail)
  else none

/-- `uthread_terminate` after the checks. -/
def terminateBody (s : Lib) (tid : ℤ) : Except Fault (Exit × Lib) := do
  let s := s.sigBlock
  let temp ← s.derefRunning
  if tid = (s.heap temp).tid then
    let s ← switchThreads s
    let (_, s) ← removeFromReady s tid
    let s ← removeFromBlock s tid
    return (.jump, { s with threads := s.threads.erase (s.heap temp).tid })
  else
    let p ← s.threadsAt tid
    if (s.heap p).state = .ready then
      let (_, s) ← removeFromReady s tid
      return (.ret success, { s with threads := s.threads.erase tid }.sigUnblock)
    else
      let s ← removeFromBlock s tid
      return (.ret success, { s with threads := s.threads.erase tid }.sigUnblock)

/-- The checks of `uthread_suspend`. -/
def suspendCheck (s : Lib) (tid : ℤ) : Option Exit :=
  if tid = mainThread then some (.ret fail)
  else if tid ∉ s.threads then some (.ret fail)
  else none

/-- What `uthread_suspend` does with the running thread after its `saveBuf`, whether that returns
for the first time or after a `loadBuf`. -/
def suspendRunning (s : Lib) : Except Fault (Exit × Lib) := do
  let r ← s.derefRunning
  let s := (s.setState r .block).pushBlocked r
  let s ← runThread { s with running := none }
  return (.jump, s)

/-- `uthread_suspend` after the checks. -/
def suspendBody (s : Lib) (tid : ℤ) : Except Fault (Exit × Lib) := do
  let s := s.sigBlock
  let r ← s.derefRunning
  if tid = (s.heap r).tid then
    suspendRunning (s.saveBuf r .suspend)
  else
    let p ← s.threadsGet tid
    let (res, s) ← removeFromReady s (s.heap p).tid
    if res = fail then
      return (.ret fail, s.sigUnblock)
    else
      let p ← s.threadsGet tid
      return (.ret success, ((s.setState p .block).pushBlocked p).sigUnblock)

/-- The checks of `uthread_resume`. -/
def resumeCheck (s : Lib) (tid : ℤ) : Option Exit :=
  match s.threads[tid]? with
  | none => some (.ret fail)
  | some p => if p ∈ s.blocked then none else some (.ret fail)

/-- `uthread_resume` after the checks.  The thread is looked up again. -/
def resumeBody (s : Lib) (tid : ℤ) : Except Fault (Exit × Lib) := do
  let s := s.sigBlock
  let p ← s.threadsGet tid
  let th ← match s.blocked[s.blocked.idxOf p]? with
    | some th => pure th
    | none => throw .outOfRange
  let s ← removeFromBlock (addToReady (s.setState th .ready) (some th)) tid
  return (.ret success, s.sigUnblock)

/-- A call of one of the four functions that change the set of threads or their places. -/
inductive Call
  | spawn (pr : Priority)
  | terminate (tid : ℤ)
  | suspend (tid : ℤ)
  | resume (tid : ℤ)
  deriving DecidableEq, Repr

/-- The checks of a call, made before the timer signal is blocked. -/
def check (s : Lib) : Call → Option Exit
  | .spawn _ => spawnCheck s
  | .terminate tid => terminateCheck s tid
  | .suspend tid => suspendCheck s tid
  | .resume tid => resumeCheck s tid

/-- What a call does once its checks are passed. -/
def body (s : Lib) : Call → Except Fault (Exit × Lib)
  | .spawn pr => spawnBody s pr
  | .terminate tid => terminateBody s tid
  | .suspend tid => suspendBody s tid
  | .resume tid => resumeBody s tid

/-- A whole call.  Terminating the main thread forgets all threads and ends the process. -/
def call (s : Lib) (c : Call) : Except Fault (Exit × Lib) :=
  match check s c with
  | some .exited => .ok (.exited, { s with threads := ∅ })
  | some e => .ok (e, s)
  | none => body s c

/-- `uthread_get_total_quantums`: the value of `_quantum_counter`. -/
def uthreadGetTotalQuantums (s : Lib) : ℤ := CLib.toInt32 s.quantumCounter

/-- `uthread_get_quantums`. -/
def uthreadGetQuantums (s : Lib) (tid : ℤ) : ℤ :=
  match s.threads[tid]? with
  | none => fail
  | some p => (s.heap p).getQuantom

/-- `running->loadBuf()`: control goes to the place where the running thread's context was saved,
and on from there to the next return to a thread's own code or the next `loadBuf`. -/
def land (s : Lib) : Except Fault (Exit × Lib) := do
  let r ← s.derefRunning
  let s := { s with mask := (s.heap r).jmpBuf.savedMask }
  match (s.heap r).jmpBuf.place with
  -- the thread's function starts
  | .entry => return (.user, s)
  -- `saveBuf` returns 1, so the handler returns and the kernel restores the mask
  | .handler interrupted => return (.user, { s with mask := interrupted })
  -- `saveBuf` returns 1, which `uthread_suspend` does not look at
  | .suspend => suspendRunning s

end Uthreads
