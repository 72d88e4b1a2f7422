import OsExercises.Blockchain.Lifecycle
import OsExercises.ForMathlib.LockOrder
import Mathlib.Order.Lattice

/-!
# The whole program, lock by lock

Here everything that takes a mutex is cut where it does so: the daemons, the closing threads, and
the calls of `add_block` and `prune_chain`.  A step is what a thread does between two operations on
a mutex, and the threads and calls, of which there may be any number, take their steps in any order.
`close_chain` can be called at any time, and the chain be opened again once it is closed, so there
can be daemons and closing threads of several chains.

* `Program.Locking` is the invariant of the mutexes: who holds one is at a place between its lock
  and its unlock.
* `exec_exists_going` says that the threads never wait for one another in a circle.
-/

set_option autoImplicit false

namespace Blockchain

variable {H : HashLib} {s t : Chain} {p q : BlockPtr} {k : ℤ} {pick seed : ℕ} {pastEnd : ℤ}

/-! ## Threads -/

/-- The mutexes that `init_blockchain` makes and `free_mutex` destroys. -/
inductive Mutex
  /-- `queueMutex`. -/
  | queue
  /-- `mapMutex`. -/
  | map
  deriving DecidableEq, Repr

/-- The position in the order in which they are locked. -/
def Mutex.level : Mutex → ℕ
  | .queue => 0
  | .map => 1

theorem Mutex.level_injective : Function.Injective Mutex.level := by
  intro a b hab
  cases a <;> cases b <;> simp_all [Mutex.level]

/-- There are two of them. -/
theorem Mutex.eq_of_ne {a b c : Mutex} (hab : a ≠ b) (hc : c ≠ a) : c = b := by
  cases a <;> cases b <;> cases c <;> simp_all

instance : LinearOrder Mutex := LinearOrder.lift' Mutex.level Mutex.level_injective

instance : Finite Mutex :=
  Finite.of_injective (fun a ↦ decide (a = .queue)) fun a b hab ↦ by
    cases a <;> cases b <;> simp_all

/-- A thread, or a call that a client's thread is in. -/
abbrev ThreadId := ℕ

/-- The two kinds of threads that run `addAndHash`. -/
inductive Worker
  /-- `daemonFunction`. -/
  | daemon
  /-- `closeChainThread`. -/
  | closer
  deriving DecidableEq, Repr

/-- Where a thread is. -/
inductive Place
  /-- It has not been made yet. -/
  | unborn
  /-- A daemon at the head of its loop. -/
  | head
  /-- A daemon before the test whether the queue is empty. -/
  | test
  /-- Before the lock of `queueMutex`. -/
  | lockQueue (w : Worker)
  /-- About to take the front block. -/
  | take (w : Worker)
  /-- In `addAndHash`, before the lock of `mapMutex`. -/
  | lockMap (w : Worker) (block : BlockPtr)
  /-- In `addAndHash`, about to insert the block. -/
  | insert (w : Worker) (block : BlockPtr)
  /-- In `addAndHash`, before the unlock of `mapMutex`. -/
  | unlockMap (w : Worker)
  /-- `addAndHash` has returned. -/
  | hashed (w : Worker)
  /-- Before the unlock of `queueMutex`. -/
  | unlockQueue (w : Worker)
  /-- A closing thread about to reset everything. -/
  | reset
  /-- `add_block`, from its start. -/
  | number (data : Option (List UInt8)) (length : ℤ)
  /-- `add_block`, before the lock of `mapMutex`. -/
  | lockFather (data : Option (List UInt8)) (length idx : ℤ)
  /-- `add_block`, about to choose the father. -/
  | father (data : Option (List UInt8)) (length idx : ℤ)
  /-- `add_block`, before the unlock of `mapMutex`. -/
  | unlockFather (data : Option (List UInt8)) (length idx fatherIdx : ℤ)
  /-- `add_block`, about to make the block. -/
  | create (data : Option (List UInt8)) (length idx fatherIdx : ℤ)
  /-- `prune_chain`, from its start. -/
  | mark
  /-- `prune_chain`, before the lock of `mapMutex`. -/
  | lockSweep
  /-- `prune_chain`, about to erase the blocks that are not marked. -/
  | sweep
  /-- `prune_chain`, before the unlock of `mapMutex`. -/
  | unlockSweep
  /-- `prune_chain`, about to take the marks off. -/
  | unmark
  /-- `return_on_close`, from its start. -/
  | join
  /-- `return_on_close`, waiting for the end of a thread. -/
  | joining (c : ThreadId)
  /-- It has ended. -/
  | ended
  deriving DecidableEq, Repr

/-- The mutex a thread is about to lock. -/
def Place.wants : Place → Option Mutex
  | .lockQueue _ => some .queue
  | .lockMap _ _ | .lockFather .. | .lockSweep => some .map
  | _ => none

/-- Does the thread hold the mutex? -/
def Place.holds : Place → Mutex → Bool
  | .take _, .queue | .lockMap _ _, .queue | .insert _ _, .queue | .unlockMap _, .queue
  | .hashed _, .queue | .unlockQueue _, .queue => true
  | .insert _ _, .map | .unlockMap _, .map | .father .., .map | .unlockFather .., .map
  | .sweep, .map | .unlockSweep, .map => true
  | _, _ => false

/-- **A mutex is locked only above those that are held.** -/
theorem Place.lt_of_wants {l : Place} {a b : Mutex} (ha : l.wants = some a)
    (hb : l.holds b = true) : b < a := by
  cases l <;> cases b <;> simp_all [Place.wants, Place.holds]
  subst ha
  decide

/-- How the process can come to an end, or behave in an undefined way. -/
inductive Crash
  /-- A worker takes the front of an empty queue. -/
  | frontOfEmpty
  /-- A worker calls `addAndHash` with a null block. -/
  | nullBlock
  /-- An exception leaves a thread's function. -/
  | uncaught
  /-- A mutex is locked that was destroyed. -/
  | mutexGone
  /-- A mutex is destroyed that somebody holds. -/
  | mutexHeld
  deriving DecidableEq, Repr

/-- The global variables and the threads. -/
structure Program where
  /-- The chain. -/
  chain : Chain
  /-- Are the two mutexes there? -/
  mutexes : Bool
  /-- Who holds a mutex. -/
  owner : Mutex → Option ThreadId
  /-- Where the threads are. -/
  place : ThreadId → Place
  /-- The number of threads made so far. -/
  made : ThreadId
  /-- `closeThread`. -/
  closeThread : ThreadId
  /-- What has gone wrong, if anything has. -/
  crash : Option Crash

/-- A call that is not over at once. -/
inductive Request
  | addBlock (data : Option (List UInt8)) (length : ℤ)
  | pruneChain
  | returnOnClose
  deriving DecidableEq, Repr

/-- Where such a call starts. -/
def Request.place : Request → Place
  | .addBlock data length => .number data length
  | .pruneChain => .mark
  | .returnOnClose => .join

/-- An event: a call, or a step of a thread. -/
inductive ProgramEvent
  /-- `init_blockchain`. -/
  | init (created : Bool)
  /-- `close_chain`. -/
  | close
  /-- `to_longest`. -/
  | toLongest (blockNum : ℤ)
  /-- `attach_now`, up to the loop in which it waits. -/
  | attachNow (blockNum : ℤ)
  /-- Another call. -/
  | call (r : Request)
  /-- A step of a thread. -/
  | run (i : ThreadId) (pick seed : ℕ) (pastEnd : ℤ)
  deriving DecidableEq, Repr

namespace Program

variable (m : Program) (i : ThreadId)

/-- The thread goes on to a place. -/
def goto (l : Place) : Program := { m with place := Function.update m.place i l }

/-- The thread leaves a chain behind and goes on to a place. -/
def leave (s : Chain) (l : Place) : Program := { m.goto i l with chain := s }

/-- `pthread_mutex_lock`. -/
def lock (a : Mutex) (l : Place) : Option Program :=
  if !m.mutexes then some { m with crash := some .mutexGone }
  else if (m.owner a).isSome then none
  else some { m.goto i l with owner := Function.update m.owner a (some i) }

/-- `pthread_mutex_unlock`. -/
def unlock (a : Mutex) (l : Place) : Program :=
  { m.goto i l with owner := Function.update m.owner a none }

/-- A new thread. -/
def create (l : Place) : Program := { m.goto m.made l with made := m.made + 1 }

/-- A worker's test of the queue, and `addAndHash` up to its lock.  The loop of a closing thread
ends when the queue is empty; a daemon has made its test before. -/
def take (H : HashLib) (w : Worker) (pick seed : ℕ) : Program :=
  match m.chain.blockQueue.head? with
  | none =>
    match w with
    | .daemon => { m with crash := some .frontOfEmpty }
    | .closer => m.goto i (.unlockQueue .closer)
  | some bToHash =>
    match popBlock m.chain (m.chain.heap bToHash).index with
    | (none, _) => { m with crash := some .nullBlock }
    | (some block, s) =>
      match prepareBlock H s block pick seed with
      | (.ret _, true, t) => m.leave i t (.lockMap w block)
      | (.ret _, false, t) => m.leave i t (.hashed w)
      | (_, _, _) => { m with crash := some .uncaught }

/-- The next step of a thread. -/
def runStep (H : HashLib) (pick seed : ℕ) (pastEnd : ℤ) : Option Program :=
  match m.place i with
  | .unborn | .ended => none
  | .head => some (m.goto i (if m.chain.currentlyBlocked then .ended else .test))
  | .test => some (m.goto i (if m.chain.blockQueue = [] then .head else .lockQueue .daemon))
  | .lockQueue w => m.lock i .queue (.take w)
  | .take w => some (m.take i H w pick seed)
  | .lockMap w block => m.lock i .map (.insert w block)
  | .insert w block => some (m.leave i (insertBlock m.chain block) (.unlockMap w))
  | .unlockMap w => some (m.unlock i .map (.hashed w))
  | .hashed .daemon => some (m.leave i { m.chain with sizeCounter := m.chain.sizeCounter + 1 }
      (.unlockQueue .daemon))
  | .hashed .closer => some (m.goto i (.take .closer))
  | .unlockQueue .daemon => some (m.unlock i .queue .head)
  | .unlockQueue .closer => some (m.unlock i .queue .reset)
  | .reset =>
    if (m.owner .queue).isSome || (m.owner .map).isSome then
      some { m with crash := some .mutexHeld }
    else some { m.leave i (resetChain m.chain) .ended with mutexes := false }
  | .number data length =>
    if !m.chain.isInitiated || m.chain.currentlyBlocked then some (m.goto i .ended)
    else
      let (idx, s) := findMinIdx m.chain
      some (m.leave i s (.lockFather data length idx))
  | .lockFather data length idx => m.lock i .map (.father data length idx)
  | .father data length idx =>
    some (m.goto i (.unlockFather data length idx (findFather m.chain pick)))
  | .unlockFather data length idx fatherIdx =>
    some (m.unlock i .map (.create data length idx fatherIdx))
  | .create data length idx fatherIdx =>
    some (m.leave i (createBlock m.chain data length idx fatherIdx).2 .ended)
  | .mark =>
    if !m.chain.isInitiated || m.chain.currentlyBlocked then some (m.goto i .ended)
    else
      match markChain m.chain pick pastEnd with
      | (.ret _, s) => some (m.leave i s .lockSweep)
      | (.diverges, _) => some m
      | (_, s) => some (m.leave i s .ended)
  | .lockSweep => m.lock i .map .sweep
  | .sweep => some (m.leave i (sweepChain m.chain) .unlockSweep)
  | .unlockSweep => some (m.unlock i .map .unmark)
  | .unmark => some (m.leave i (unmarkChain m.chain) .ended)
  | .join =>
    some (m.goto i
      (if !m.chain.currentlyBlocked || !m.chain.isInitiated then .ended
      else .joining m.closeThread))
  | .joining c => if m.place c = .ended then some (m.goto i .ended) else none

/-- What happens at an event. -/
def act (H : HashLib) : ProgramEvent → Option Program
  | .init created =>
    match initBlockchain m.chain created with
    | (.ret v, s) =>
      if v = success then some { m.create .head with
        chain := s
        mutexes := true
        owner := fun _ ↦ none }
      else some { m with chain := s }
    | _ => none
  | .close =>
    if m.chain.isInitiated then some { m.create (.lockQueue .closer) with
      chain := closeChain m.chain
      closeThread := m.made }
    else some m
  | .toLongest blockNum => some { m with chain := (toLongest m.chain blockNum).2 }
  | .attachNow blockNum => some { m with chain := (attachNow m.chain blockNum).2 }
  | .call r => some (m.create r.place)
  | .run i pick seed pastEnd => m.runStep i H pick seed pastEnd

/-- The process goes on as long as nothing has gone wrong. -/
def step (H : HashLib) (m : Program) (e : ProgramEvent) : Option Program :=
  if m.crash.isSome then none else m.act H e

/-- The start of the program. -/
def fresh : Program := ⟨Chain.fresh, false, fun _ ↦ none, fun _ ↦ .unborn, 0, 0, none⟩

end Program

/-! ## What the parts leave alone -/

/-- The flags are the same. -/
structure SameFlags (s t : Chain) : Prop where
  /-- Whether the chain is open. -/
  initiated : t.isInitiated = s.isInitiated
  /-- Whether it is being closed. -/
  blocked : t.currentlyBlocked = s.currentlyBlocked

theorem SameFlags.refl (s : Chain) : SameFlags s s := ⟨rfl, rfl⟩

theorem SameFlags.trans {u : Chain} (h : SameFlags s t) (h' : SameFlags t u) : SameFlags s u :=
  ⟨h'.initiated.trans h.initiated, h'.blocked.trans h.blocked⟩

theorem sameFlags_linkBlock (s : Chain) (f : ℤ) : SameFlags s (linkBlock H s p f seed).2 := by
  rw [linkBlock]
  split <;> exact ⟨rfl, rfl⟩

theorem sameFlags_prepareBlock (H : HashLib) (s : Chain) (p : BlockPtr) (pick seed : ℕ) :
    SameFlags s (prepareBlock H s p pick seed).2.2 := by
  rw [prepareBlock]
  dsimp only
  split
  · split
    · exact ⟨rfl, rfl⟩
    · split
      · exact ⟨rfl, rfl⟩
      · exact .trans (by exact ⟨rfl, rfl⟩) (sameFlags_linkBlock _ _)
  · exact .trans (by exact ⟨rfl, rfl⟩) (sameFlags_linkBlock _ _)

theorem sameFlags_markLongest (n : ℕ) (s : Chain) (k : ℤ) :
    SameFlags s (markLongest n s k).2 := by
  induction n generalizing s k with
  | zero => exact .refl s
  | succ n ih =>
    rw [markLongest]
    split
    · exact .refl s
    · split
      · exact .refl s
      · exact .trans (by exact ⟨rfl, rfl⟩) (ih _ _)

theorem sameFlags_markChain (s : Chain) (pick : ℕ) (pastEnd : ℤ) :
    SameFlags s (markChain s pick pastEnd).2 := by
  have hmark := sameFlags_markLongest s.blockMap.size s (findFather s pick)
  rw [markChain]
  generalize markLongest s.blockMap.size s (findFather s pick) = r at hmark ⊢
  obtain ⟨x, u⟩ := r
  cases x with
  | ret v =>
    dsimp only
    split
    · exact hmark
    · split
      · exact hmark.trans ⟨rfl, rfl⟩
      · exact hmark.trans ⟨rfl, rfl⟩
  | _ => exact hmark

theorem sameFlags_unmarkChain (s : Chain) : SameFlags s (unmarkChain s) := by
  rw [unmarkChain, unmark_eq]
  exact ⟨rfl, rfl⟩

theorem sameFlags_createBlock (s : Chain) (data : Option (List UInt8)) (length idx f : ℤ) :
    SameFlags s (createBlock s data length idx f).2 := by
  rw [createBlock]
  split
  · exact .refl s
  · split <;> exact ⟨rfl, rfl⟩

theorem sameFlags_toLongest (s : Chain) (k : ℤ) : SameFlags s (toLongest s k).2 := by
  rcases toLongest_cases s k with h | ⟨p, -, h⟩
  · rw [h]
    exact .refl s
  · rw [h]
    exact ⟨rfl, rfl⟩

theorem sameFlags_attachNow (s : Chain) (k : ℤ) : SameFlags s (attachNow s k).2 := by
  obtain ⟨q, -, h⟩ := attachNow_cases s k
  rw [h]
  exact ⟨rfl, rfl⟩

theorem sameFlags_popBlock (s : Chain) (k : ℤ) : SameFlags s (popBlock s k).2 := by
  rw [popBlock]
  split <;> exact ⟨rfl, rfl⟩

/-! ## What a step of a thread does to the threads -/

/-- The function a thread runs. -/
def Place.worker : Place → Option Worker
  | .head | .test => some .daemon
  | .lockQueue w | .take w | .lockMap w _ | .insert w _ | .unlockMap w | .hashed w
  | .unlockQueue w => some w
  | .reset => some .closer
  | _ => none

theorem Request.holds_place (r : Request) (a : Mutex) : r.place.holds a = false := by
  cases r <;> cases a <;> rfl

/-- What happens to the owner of a mutex when a thread moves on, which holds it before or after: it
stays the same, the thread locks the mutex, which is there, or it unlocks it. -/
def OwnerMoves (i : ThreadId) (there before after : Bool) (o o' : Option ThreadId) : Prop :=
  (after = before ∧ o' = o) ∨ (there = true ∧ after = true ∧ o = none ∧ o' = some i) ∨
    (before = true ∧ after = false ∧ o' = none)

namespace Program

variable {m m' : Program} {i j : ThreadId} {l : Place} {a : Mutex} {e : ProgramEvent}

/-- What a step of a thread does, the chain apart. -/
structure Runs (m : Program) (i : ThreadId) (m' : Program) : Prop where
  /-- The other threads stay where they are. -/
  others : ∀ j, j ≠ i → m'.place j = m.place j
  /-- A thread goes on with its function, or ends. -/
  worker : (m'.place i).worker = (m.place i).worker ∨ m'.place i = .ended
  /-- No thread is made. -/
  made : m'.made = m.made ∧ m'.closeThread = m.closeThread
  /-- `return_on_close` waits for the last closing thread, and only while the chain is closed. -/
  joins : ∀ c, m'.place i = .joining c →
    m.place i = .joining c ∨ (c = m.closeThread ∧ m.chain.currentlyBlocked = true)
  /-- Only a closing thread, at its end, resets everything and destroys the mutexes. -/
  flags : (SameFlags m.chain m'.chain ∧ m'.mutexes = m.mutexes) ∨
    (m.place i = .reset ∧ m'.place i = .ended ∧ m'.chain = resetChain m.chain ∧
      m'.mutexes = false ∧ ∀ a, m.owner a = none)
  /-- The mutexes move with the thread. -/
  owner : ∀ a, OwnerMoves i m.mutexes ((m.place i).holds a) ((m'.place i).holds a) (m.owner a)
    (m'.owner a)

/-- A thread that stays where it is. -/
theorem Runs.stay (c : Option Crash) : m.Runs i { m with crash := c } :=
  ⟨fun _ _ ↦ rfl, .inl rfl, ⟨rfl, rfl⟩, fun _ ↦ .inl, .inl ⟨.refl _, rfl⟩,
    fun _ ↦ .inl ⟨rfl, rfl⟩⟩

theorem leave_place_self (s : Chain) : (m.leave i s l).place i = l := Function.update_self ..

theorem leave_place_of_ne (s : Chain) (h : j ≠ i) : (m.leave i s l).place j = m.place j :=
  Function.update_of_ne h ..

/-- A thread that goes on without touching a mutex. -/
theorem Runs.leave {s : Chain} (hs : SameFlags m.chain s)
    (hholds : l.holds = (m.place i).holds) (hw : l.worker = (m.place i).worker ∨ l = .ended)
    (hj : ∀ c, l = .joining c → c = m.closeThread ∧ m.chain.currentlyBlocked = true) :
    m.Runs i (m.leave i s l) := by
  refine ⟨fun j hj ↦ leave_place_of_ne s hj, ?_, ⟨rfl, rfl⟩, fun c hc ↦ .inr (hj c ?_),
    .inl ⟨hs, rfl⟩, fun a ↦ .inl ⟨?_, rfl⟩⟩
  · rwa [leave_place_self]
  · rwa [leave_place_self] at hc
  · rw [leave_place_self, hholds]

/-- A thread that locks a mutex, or finds that it is not there. -/
theorem Runs.lock (h : m.lock i a l = some m') (ha : l.holds a = true)
    (hne : ∀ b, b ≠ a → l.holds b = (m.place i).holds b) (hw : l.worker = (m.place i).worker) :
    m.Runs i m' := by
  have hno : ∀ c, l ≠ .joining c := by
    rintro c rfl
    cases a <;> simp [Place.holds] at ha
  rw [Program.lock] at h
  split at h
  · cases h
    exact .stay _
  · rename_i hthere
    split at h
    · cases h
    · rename_i hfree
      cases h
      refine ⟨fun j hj ↦ Function.update_of_ne hj .., .inl ?_, ⟨rfl, rfl⟩, fun c hc ↦ ?_,
        .inl ⟨.refl _, rfl⟩, fun b ↦ ?_⟩
      · rw [show ({ m.goto i l with owner := _ } : Program).place i = l from
          Function.update_self .., hw]
      · rw [show ({ m.goto i l with owner := _ } : Program).place i = l from
          Function.update_self ..] at hc
        exact absurd hc (hno c)
      · rw [show ({ m.goto i l with owner := _ } : Program).place i = l from
          Function.update_self ..]
        by_cases hb : b = a
        · subst hb
          exact .inr (.inl ⟨by simpa using hthere, ha, by simpa using hfree,
            Function.update_self ..⟩)
        · exact .inl ⟨hne b hb, Function.update_of_ne hb ..⟩

/-- A thread that unlocks a mutex. -/
theorem Runs.unlock (hm : (m.place i).holds a = true) (ha : l.holds a = false)
    (hne : ∀ b, b ≠ a → l.holds b = (m.place i).holds b) (hw : l.worker = (m.place i).worker)
    (hj : ∀ c, l ≠ .joining c) : m.Runs i (m.unlock i a l) := by
  have hplace : (m.unlock i a l).place i = l := Function.update_self ..
  refine ⟨fun j hj ↦ Function.update_of_ne hj .., .inl (by rw [hplace, hw]), ⟨rfl, rfl⟩,
    fun c hc ↦ absurd (hplace ▸ hc) (hj c), .inl ⟨.refl _, rfl⟩, fun b ↦ ?_⟩
  rw [hplace]
  by_cases hb : b = a
  · subst hb
    exact .inr (.inr ⟨hm, ha, Function.update_self ..⟩)
  · exact .inl ⟨hne b hb, Function.update_of_ne hb ..⟩

theorem Runs.take {w : Worker} (h : m.place i = .take w) : m.Runs i (m.take i H w pick seed) := by
  have hleave : ∀ {s l}, SameFlags m.chain s → l.holds = (Place.take w).holds →
      l.worker = some w → m.Runs i (m.leave i s l) := fun hs hl hw ↦
    .leave hs (by rw [h, hl]) (.inl (by rw [h, hw]; rfl))
      fun c hc ↦ by rw [hc] at hw; cases hw
  unfold Program.take
  split
  · cases w with
    | daemon => exact .stay _
    | closer => exact hleave (.refl _) (by funext b; cases b <;> rfl) rfl
  · rename_i front hq
    have hpop := sameFlags_popBlock m.chain (m.chain.heap front).index
    generalize popBlock m.chain (m.chain.heap front).index = popped at hpop
    obtain ⟨_ | block, s⟩ := popped
    · exact .stay _
    · have hprep := hpop.trans (sameFlags_prepareBlock H s block pick seed)
      dsimp only
      generalize prepareBlock H s block pick seed = r at hprep
      obtain ⟨x, b, t⟩ := r
      cases x with
      | ret v =>
        cases b with
        | false => exact hleave hprep (by funext b; cases b <;> rfl) rfl
        | true => exact hleave hprep (by funext b; cases b <;> rfl) rfl
      | _ => exact .stay _

/-- **What a step of a thread does**, the chain apart. -/
theorem runStep_runs (h : m.runStep i H pick seed pastEnd = some m') : m.Runs i m' := by
  have hleave : ∀ {s l l'}, m.place i = l' → SameFlags m.chain s → l.holds = l'.holds →
      (l.worker = l'.worker ∨ l = .ended) →
      (∀ c, l = .joining c → c = m.closeThread ∧ m.chain.currentlyBlocked = true) →
      m.Runs i (m.leave i s l) := fun hp hs hl hw hj ↦ .leave hs (by rw [hp, hl]) (by rwa [hp]) hj
  have hlock : ∀ {a l l'}, m.place i = l' → m.lock i a l = some m' → l.holds a = true →
      (∀ b, b ≠ a → l.holds b = l'.holds b) → l.worker = l'.worker → m.Runs i m' :=
    fun hp hm ha hb hw ↦ .lock hm ha (by rwa [hp]) (by rwa [hp])
  have hunlock : ∀ {a l l'}, m.place i = l' → l'.holds a = true → l.holds a = false →
      (∀ b, b ≠ a → l.holds b = l'.holds b) → l.worker = l'.worker → (∀ c, l ≠ .joining c) →
      m.Runs i (m.unlock i a l) :=
    fun hp hm ha hb hw hj ↦ .unlock (by rwa [hp]) ha (by rwa [hp]) (by rwa [hp]) hj
  have hsame : ∀ {l l' : Place}, l.holds .queue = l'.holds .queue → l.holds .map = l'.holds .map →
      l.holds = l'.holds := fun h1 h2 ↦ by
    funext b
    cases b
    · exact h1
    · exact h2
  have hother : ∀ {l l' : Place} {a b : Mutex}, a ≠ b → l.holds b = l'.holds b →
      ∀ c, c ≠ a → l.holds c = l'.holds c := fun hab hb c hc ↦ Mutex.eq_of_ne hab hc ▸ hb
  rw [runStep] at h
  cases hp : m.place i with
  | unborn | ended => simp [hp] at h
  | head =>
    simp only [hp, Option.some.injEq] at h
    rw [← h]
    split
    · exact hleave hp (.refl _) (hsame rfl rfl) (.inr rfl) (by simp)
    · exact hleave hp (.refl _) (hsame rfl rfl) (.inl rfl) (by simp)
  | test =>
    simp only [hp, Option.some.injEq] at h
    rw [← h]
    split
    · exact hleave hp (.refl _) (hsame rfl rfl) (.inl rfl) (by simp)
    · exact hleave hp (.refl _) (hsame rfl rfl) (.inl rfl) (by simp)
  | lockQueue w =>
    simp only [hp] at h
    exact hlock hp h rfl (hother (b := .map) (by decide) rfl) rfl
  | take w =>
    simp only [hp, Option.some.injEq] at h
    exact h ▸ .take hp
  | lockMap w block =>
    simp only [hp] at h
    exact hlock hp h rfl (hother (b := .queue) (by decide) rfl) rfl
  | insert w block =>
    simp only [hp, Option.some.injEq] at h
    exact h ▸ hleave hp ⟨rfl, rfl⟩ (hsame rfl rfl) (.inl rfl) (by simp)
  | unlockMap w =>
    simp only [hp, Option.some.injEq] at h
    exact h ▸ hunlock hp rfl rfl (hother (b := .queue) (by decide) rfl) rfl (by simp)
  | hashed w =>
    cases w with
    | daemon =>
      simp only [hp, Option.some.injEq] at h
      exact h ▸ hleave hp ⟨rfl, rfl⟩ (hsame rfl rfl) (.inl rfl) (by simp)
    | closer =>
      simp only [hp, Option.some.injEq] at h
      exact h ▸ hleave hp (.refl _) (hsame rfl rfl) (.inl rfl) (by simp)
  | unlockQueue w =>
    cases w with
    | daemon =>
      simp only [hp, Option.some.injEq] at h
      exact h ▸ hunlock hp rfl rfl (hother (b := .map) (by decide) rfl) rfl (by simp)
    | closer =>
      simp only [hp, Option.some.injEq] at h
      exact h ▸ hunlock hp rfl rfl (hother (b := .map) (by decide) rfl) rfl (by simp)
  | reset =>
    simp only [hp] at h
    split at h
    · exact Option.some.inj h ▸ .stay _
    · rename_i hheld
      simp only [Bool.or_eq_true, not_or, Bool.not_eq_true, Option.isSome_eq_false_iff,
        Option.isNone_iff_eq_none] at hheld
      have hplace : m'.place i = .ended := by
        rw [← Option.some.inj h]
        exact Function.update_self ..
      have hfree : ∀ a, m.owner a = none := fun a ↦ by
        cases a
        · exact hheld.1
        · exact hheld.2
      refine ⟨fun j hj ↦ ?_, .inr hplace, by rw [← Option.some.inj h]; exact ⟨rfl, rfl⟩,
        by simp [hplace], .inr ⟨hp, hplace, by rw [← Option.some.inj h]; rfl,
          by rw [← Option.some.inj h], hfree⟩, fun a ↦ .inl ⟨?_, by rw [← Option.some.inj h]; rfl⟩⟩
      · rw [← Option.some.inj h]
        exact Function.update_of_ne hj ..
      · rw [hplace, hp]
        cases a <;> rfl
  | number data length =>
    simp only [hp] at h
    split at h
    · exact Option.some.inj h ▸ hleave hp (.refl _) (hsame rfl rfl) (.inr rfl) (by simp)
    · exact Option.some.inj h ▸ hleave hp ⟨rfl, rfl⟩ (hsame rfl rfl) (.inl rfl) (by simp)
  | lockFather data length idx =>
    simp only [hp] at h
    exact hlock hp h rfl (hother (b := .queue) (by decide) rfl) rfl
  | father data length idx =>
    simp only [hp, Option.some.injEq] at h
    exact h ▸ hleave hp (.refl _) (hsame rfl rfl) (.inl rfl) (by simp)
  | unlockFather data length idx f =>
    simp only [hp, Option.some.injEq] at h
    exact h ▸ hunlock hp rfl rfl (hother (b := .queue) (by decide) rfl) rfl (by simp)
  | create data length idx f =>
    simp only [hp, Option.some.injEq] at h
    exact h ▸ hleave hp (sameFlags_createBlock _ _ _ _ _) (hsame rfl rfl) (.inr rfl) (by simp)
  | mark =>
    simp only [hp] at h
    split at h
    · exact Option.some.inj h ▸ hleave hp (.refl _) (hsame rfl rfl) (.inr rfl) (by simp)
    · have hmark := sameFlags_markChain m.chain pick pastEnd
      generalize markChain m.chain pick pastEnd = r at h hmark
      obtain ⟨x, s⟩ := r
      cases x with
      | ret v => exact Option.some.inj h ▸ hleave hp hmark (hsame rfl rfl) (.inl rfl) (by simp)
      | diverges => exact Option.some.inj h ▸ .stay m.crash
      | _ => exact Option.some.inj h ▸ hleave hp hmark (hsame rfl rfl) (.inr rfl) (by simp)
  | lockSweep =>
    simp only [hp] at h
    exact hlock hp h rfl (hother (b := .queue) (by decide) rfl) rfl
  | sweep =>
    simp only [hp, Option.some.injEq] at h
    exact h ▸ hleave hp ⟨rfl, rfl⟩ (hsame rfl rfl) (.inl rfl) (by simp)
  | unlockSweep =>
    simp only [hp, Option.some.injEq] at h
    exact h ▸ hunlock hp rfl rfl (hother (b := .queue) (by decide) rfl) rfl (by simp)
  | unmark =>
    simp only [hp, Option.some.injEq] at h
    exact h ▸ hleave hp (sameFlags_unmarkChain _) (hsame rfl rfl) (.inr rfl) (by simp)
  | join =>
    simp only [hp, Option.some.injEq] at h
    rw [← h]
    split
    · exact hleave hp (.refl _) (hsame rfl rfl) (.inr rfl) (by simp)
    · rename_i hclosing
      refine hleave hp (.refl _) (hsame rfl rfl) (.inl rfl) fun c hc ↦ ⟨by cases hc; rfl, ?_⟩
      simp only [Bool.or_eq_true, Bool.not_eq_true', not_or, Bool.not_eq_false] at hclosing
      exact hclosing.1
  | joining c =>
    simp only [hp] at h
    split at h
    · exact Option.some.inj h ▸ hleave hp (.refl _) (hsame rfl rfl) (.inr rfl) (by simp)
    · cases h

/-! ## The mutexes -/

/-- A closing thread, which may have ended. -/
def Closer (m : Program) (c : ThreadId) : Prop :=
  (m.place c).worker = some .closer ∨ m.place c = .ended

/-- The mutexes and the threads fit together. -/
structure Locking (m : Program) : Prop where
  /-- A mutex is held by the thread that is between its lock and its unlock. -/
  owner : ∀ a i, m.owner a = some i ↔ (m.place i).holds a = true
  /-- The threads that are not made yet. -/
  unborn : ∀ i, m.made ≤ i → m.place i = .unborn
  /-- The mutexes are there while the chain is open. -/
  mutexes : m.mutexes = m.chain.isInitiated
  /-- Nobody holds a mutex that is not there. -/
  free : m.mutexes = false → ∀ a, m.owner a = none
  /-- While the chain is being closed, `closeThread` is a closing thread. -/
  closing : m.chain.currentlyBlocked = true → m.Closer m.closeThread
  /-- So is the thread a call of `return_on_close` waits for. -/
  joins : ∀ i c, m.place i = .joining c → m.Closer c

/-- **A step of a thread keeps everything in order.** -/
theorem Locking.runs (h : m.Locking) (hi : m.place i ≠ .unborn) (hend : m.place i ≠ .ended)
    (hr : m.Runs i m') : m'.Locking := by
  have hcloser : ∀ {c}, m.Closer c → m'.Closer c := by
    intro c hc
    by_cases hci : c = i
    · subst hci
      rcases hr.worker with hw | hend'
      · exact .inl (hw.trans (hc.resolve_right hend))
      · exact .inr hend'
    · rwa [Closer, hr.others c hci]
  refine ⟨fun a j ↦ ?_, fun j hj ↦ ?_, ?_, fun hgone a ↦ ?_, fun hb ↦ ?_, fun j c hj ↦ ?_⟩
  · have hown := h.owner a
    by_cases hji : j = i
    · subst hji
      rcases hr.owner a with ⟨hsame, ho⟩ | ⟨-, hafter, -, ho⟩ | ⟨-, hafter, ho⟩
      · rw [ho, hsame, hown]
      · simp [ho, hafter]
      · simp [ho, hafter]
    · rw [hr.others j hji]
      rcases hr.owner a with ⟨-, ho⟩ | ⟨-, -, hfree, ho⟩ | ⟨hbefore, -, ho⟩
      · rw [ho, hown]
      · rw [ho, ← hown j, hfree]
        simp [Ne.symm hji]
      · rw [ho, ← hown j, (hown i).mpr hbefore]
        simp [Ne.symm hji]
  · rw [hr.made.1] at hj
    rw [hr.others j fun hji ↦ hi (hji ▸ h.unborn j hj), h.unborn j hj]
  · rcases hr.flags with ⟨hflags, hm⟩ | ⟨-, -, hchain, hm, -⟩
    · rw [hm, h.mutexes, hflags.initiated]
    · rw [hm, hchain]
      rfl
  · rcases hr.flags with ⟨-, hm⟩ | ⟨-, hp', -, -, hfree⟩
    · rw [hm] at hgone
      rcases hr.owner a with ⟨-, ho⟩ | ⟨hthere, -, -, -⟩ | ⟨-, -, ho⟩
      · rw [ho, h.free hgone]
      · rw [hthere] at hgone
        cases hgone
      · exact ho
    · rcases hr.owner a with ⟨-, ho⟩ | ⟨-, hafter, -, -⟩ | ⟨-, -, ho⟩
      · rw [ho, hfree]
      · rw [hp'] at hafter
        cases hafter
      · exact ho
  · rw [hr.made.2]
    rcases hr.flags with ⟨hflags, -⟩ | ⟨-, -, hchain, -, -⟩
    · exact hcloser (h.closing (hflags.blocked ▸ hb))
    · rw [hchain] at hb
      cases hb
  · by_cases hji : j = i
    · subst hji
      rcases hr.joins c hj with hold | ⟨rfl, hb⟩
      · exact hcloser (h.joins _ c hold)
      · exact hcloser (h.closing hb)
    · rw [hr.others j hji] at hj
      exact hcloser (h.joins j c hj)

theorem create_place (m : Program) (l : Place) (j : ThreadId) :
    (m.create l).place j = if j = m.made then l else m.place j := by
  by_cases hj : j = m.made
  · simp [Program.create, Program.goto, hj]
  · simp [Program.create, Program.goto, hj]

/-- A new thread that holds nothing and waits for nobody. -/
theorem Locking.create (h : m.Locking) (hl : ∀ a, l.holds a = false) (hj : ∀ c, l ≠ .joining c) :
    (m.create l).Locking := by
  have hcloser : ∀ {c}, m.Closer c → (m.create l).Closer c := by
    intro c hc
    rw [Closer, create_place]
    split
    · rename_i hcm
      rw [hcm, Closer, h.unborn m.made le_rfl] at hc
      rcases hc with hc | hc <;> cases hc
    · exact hc
  refine ⟨fun a j ↦ ?_, fun j hj ↦ ?_, h.mutexes, h.free, fun hb ↦ hcloser (h.closing hb),
    fun j c hjc ↦ ?_⟩
  · rw [show (m.create l).owner = m.owner from rfl, h.owner, create_place]
    split
    · rename_i hj
      rw [hj, h.unborn m.made le_rfl, hl]
      rfl
    · rfl
  · have hlt : m.made + 1 ≤ j := hj
    rw [create_place, if_neg (Nat.lt_of_succ_le hlt).ne', h.unborn j (Nat.le_of_succ_le hlt)]
  · rw [create_place] at hjc
    split at hjc
    · exact absurd hjc (hj c)
    · exact hcloser (h.joins j c hjc)

/-- Only the flags of the chain matter. -/
theorem Locking.withChain (h : m.Locking) {s : Chain} (hs : SameFlags m.chain s) :
    { m with chain := s }.Locking :=
  ⟨h.owner, h.unborn, h.mutexes.trans hs.initiated.symm, h.free,
    fun hb ↦ h.closing (hs.blocked ▸ hb), h.joins⟩

/-- What `init_blockchain` does. -/
theorem init_cases {created : Bool} (h : m.act H (.init created) = some m') :
    (m.chain.isInitiated = false ∧ m' = { m.create .head with
      chain := m.chain.opened
      mutexes := true
      owner := fun _ ↦ none }) ∨ ∃ b, m' = { m with chain := { m.chain with sMutex := b } } := by
  rw [act] at h
  rcases initBlockchain_cases m.chain created with ⟨hno, heq⟩ | ⟨x, b, hx, heq⟩
  · rw [heq] at h
    exact .inl ⟨hno, (Option.some.inj h).symm⟩
  · rw [heq] at h
    cases x with
    | ret v =>
      have hv : v ≠ success := fun hv ↦ hx (by rw [hv])
      simp only [if_neg hv] at h
      exact .inr ⟨b, (Option.some.inj h).symm⟩
    | _ => cases h

/-- What `close_chain` does. -/
theorem close_cases (h : m.act H .close = some m') :
    (m.chain.isInitiated = true ∧ m' = { m.create (.lockQueue .closer) with
      chain := { m.chain with currentlyBlocked := true }
      closeThread := m.made }) ∨ m' = m := by
  rw [act] at h
  split at h
  · rename_i hopen
    refine .inl ⟨hopen, ?_⟩
    rw [← Option.some.inj h, closeChain, if_pos hopen]
  · exact .inr (Option.some.inj h).symm

/-- **The step lemma.** -/
theorem Locking.step (h : m.Locking) (hst : m.step H e = some m') : m'.Locking := by
  rw [Program.step] at hst
  split at hst
  · cases hst
  cases e with
  | init created =>
    rcases init_cases hst with ⟨hno, rfl⟩ | ⟨b, rfl⟩
    · have hgone : m.mutexes = false := h.mutexes.trans hno
      have hnew := h.create (l := .head) (fun a ↦ by cases a <;> rfl) (by simp)
      refine ⟨fun a j ↦ ?_, hnew.unborn, rfl, fun _ _ ↦ rfl, hnew.closing, hnew.joins⟩
      rw [← h.free hgone a]
      exact hnew.owner a j
    · exact h.withChain ⟨rfl, rfl⟩
  | close =>
    rcases close_cases hst with ⟨hopen, rfl⟩ | rfl
    · have hnew := h.create (l := .lockQueue .closer) (fun a ↦ by cases a <;> rfl) (by simp)
      refine ⟨hnew.owner, hnew.unborn, hnew.mutexes, hnew.free, fun _ ↦ .inl ?_, hnew.joins⟩
      change ((m.create (.lockQueue .closer)).place m.made).worker = _
      rw [create_place, if_pos rfl]
      rfl
    · exact h
  | toLongest k => exact Option.some.inj hst ▸ h.withChain (sameFlags_toLongest _ k)
  | attachNow k => exact Option.some.inj hst ▸ h.withChain (sameFlags_attachNow _ k)
  | call r =>
    exact Option.some.inj hst ▸ h.create r.holds_place (by cases r <;> simp [Request.place])
  | run i pick seed pastEnd =>
    have hrun : m.runStep i H pick seed pastEnd = some m' := hst
    refine h.runs (fun hp ↦ ?_) (fun hp ↦ ?_) (runStep_runs hrun)
    · simp [runStep, hp] at hrun
    · simp [runStep, hp] at hrun

theorem locking_fresh : fresh.Locking := by
  refine ⟨fun a i ↦ ?_, fun _ _ ↦ rfl, rfl, fun _ _ ↦ rfl, fun hb ↦ ?_, fun i c hi ↦ ?_⟩
  · cases a <;> simp [fresh, Place.holds]
  · cases hb
  · cases hi

/-- **The run lemma.** -/
theorem exec_locking {es : List ProgramEvent} (h : Run.exec (Program.step H) fresh es = some m) :
    m.Locking := Run.exec_induction (fun _ _ _ hm hst ↦ hm.step hst) locking_fresh h

/-! ## Waiting -/

/-- The mutexes, as a table of locks. -/
def table (m : Program) : LockTable ThreadId Mutex := ⟨m.owner, fun i ↦ (m.place i).wants⟩

/-- `i` waits for `j`: for a mutex that `j` holds, or, in `return_on_close`, for the end of `j`. -/
def Waits (m : Program) (i j : ThreadId) : Prop :=
  m.table.Waits i j ∨ (m.place i = .joining j ∧ m.place j ≠ .ended)

/-- A mutex that a thread is about to lock is above those it holds. -/
theorem Locking.ordered (h : m.Locking) : m.table.Ordered :=
  fun i _ b ha hb ↦ Place.lt_of_wants ha ((h.owner b i).mp hb)

/-- A mutex that nobody holds can be locked. -/
theorem lock_isSome (h : ∀ j, m.owner a ≠ some j) : (m.lock i a l).isSome := by
  rw [Program.lock, Option.eq_none_iff_forall_ne_some.mpr h]
  split <;> rfl

/-- A thread that waits for nobody can make a step, unless it is not there. -/
theorem runStep_isSome (hno : ∀ j, ¬m.Waits i j) (hborn : m.place i ≠ .unborn)
    (halive : m.place i ≠ .ended) (pick seed : ℕ) (pastEnd : ℤ) :
    (m.runStep i H pick seed pastEnd).isSome := by
  have hlock : ∀ {a l}, (m.place i).wants = some a → (m.lock i a l).isSome := fun {a l} ha ↦
    lock_isSome fun j hj ↦ hno j (.inl ⟨a, ha, hj⟩)
  rw [runStep]
  cases hp : m.place i with
  | unborn => exact absurd hp hborn
  | ended => exact absurd hp halive
  | lockQueue | lockMap | lockFather | lockSweep => exact hlock (by rw [hp]; rfl)
  | joining c =>
    have hend : m.place c = .ended := by
      by_contra hne
      exact hno c (.inr ⟨hp, hne⟩)
    simp [hend]
  | hashed w | unlockQueue w => cases w <;> rfl
  | reset | number =>
    dsimp only
    split <;> rfl
  | mark =>
    dsimp only
    split
    · rfl
    · split <;> rfl
  | _ => rfl

/-- Who is waited for is in its function, and waits for nobody's end. -/
theorem Locking.of_waits (h : m.Locking) (hij : m.Waits i j) :
    m.place j ≠ .unborn ∧ m.place j ≠ .ended ∧ ∀ c, m.place j ≠ .joining c := by
  rcases hij with ⟨a, -, ha⟩ | ⟨hj, hne⟩
  · have hholds := (h.owner a j).mp ha
    refine ⟨?_, ?_, fun c ↦ ?_⟩
    all_goals
      intro hp
      rw [hp] at hholds
      cases a <;> cases hholds
  · have hw := (h.joins i j hj).resolve_right hne
    refine ⟨?_, hne, fun c ↦ ?_⟩
    all_goals
      intro hp
      rw [hp] at hw
      cases hw

/-- A chain of threads that wait for one another leads to a thread that can go on. -/
theorem Locking.exists_going (h : m.Locking) (H : HashLib) (hborn : m.place j ≠ .unborn)
    (halive : m.place j ≠ .ended) (hjoin : ∀ c, m.place j ≠ .joining c) :
    ∃ k, Relation.ReflTransGen m.Waits j k ∧
      ∀ pick seed pastEnd, (m.runStep k H pick seed pastEnd).isSome := by
  obtain ⟨k, hjk, hk⟩ := h.ordered.exists_going j
  have hchain : Relation.ReflTransGen m.Waits j k :=
    Relation.ReflTransGen.mono (fun _ _ ↦ .inl) _ _ hjk
  have hplace : m.place k ≠ .unborn ∧ m.place k ≠ .ended ∧ ∀ c, m.place k ≠ .joining c := by
    rcases Relation.ReflTransGen.cases_tail hchain with rfl | ⟨l, -, hlk⟩
    · exact ⟨hborn, halive, hjoin⟩
    · exact h.of_waits hlk
  have hno : ∀ l, ¬m.Waits k l := by
    rintro l (hl | ⟨hl, -⟩)
    · exact hk l hl
    · exact hplace.2.2 l hl
  exact ⟨k, hchain, runStep_isSome hno hplace.1 hplace.2.1⟩

theorem step_run_eq (hc : m.crash = none) (i : ThreadId) (pick seed : ℕ) (pastEnd : ℤ) :
    m.step H (.run i pick seed pastEnd) = m.runStep i H pick seed pastEnd := by
  rw [Program.step, hc, Option.isSome_none, if_neg Bool.false_ne_true]
  rfl

/-- **The threads never wait for one another in a circle.**  In every state that can be reached, a
chain of threads that wait for one another leads to a thread that can go on. -/
theorem exec_exists_going {es : List ProgramEvent}
    (h : Run.exec (Program.step H) fresh es = some m) (hc : m.crash = none)
    (hij : m.Waits i j) (pick seed : ℕ) (pastEnd : ℤ) :
    ∃ k, Relation.ReflTransGen m.Waits j k ∧ (m.step H (.run k pick seed pastEnd)).isSome := by
  have hm := exec_locking h
  obtain ⟨hborn, halive, hjoin⟩ := hm.of_waits hij
  obtain ⟨k, hjk, hk⟩ := hm.exists_going H hborn halive hjoin
  refine ⟨k, hjk, ?_⟩
  rw [step_run_eq hc]
  exact hk pick seed pastEnd

/-- The daemon holds `queueMutex` when the chain is closed. -/
def contendedEvents : List ProgramEvent :=
  [.init true, .call (.addBlock none 0), .run 1 0 0 0, .run 1 0 0 0, .run 1 0 0 0, .run 1 0 0 0,
    .run 1 0 0 0, .run 0 0 0 0, .run 0 0 0 0, .run 0 0 0 0, .close]

theorem exec_contendedEvents :
    ∃ m, Run.exec (Program.step plainHash) fresh contendedEvents = some m ∧
      (m.place 2, m.owner .queue, m.crash) = (.lockQueue .closer, some 0, none) := by
  rw [← Option.map_eq_some_iff]
  decide

theorem exec_exists_going_sample :
    ∃ m k, Run.exec (Program.step plainHash) fresh contendedEvents = some m ∧ m.Waits 2 0 ∧
      (m.step plainHash (.run k 0 0 0)).isSome := by
  obtain ⟨m, hm, h⟩ := exec_contendedEvents
  simp only [Prod.mk.injEq] at h
  obtain ⟨hplace, howner, hc⟩ := h
  have hwants : (m.place 2).wants = some .queue := by rw [hplace]; rfl
  have hw : m.Waits 2 0 := .inl ⟨.queue, hwants, howner⟩
  obtain ⟨k, -, hk⟩ := exec_exists_going hm hc hw 0 0 0
  exact ⟨m, k, hm, hw, hk⟩

end Program

end Blockchain
