import OsExercises.Blockchain.Linked

/-!
# The threads around the queue

The daemon tests whether the queue is empty before it locks `queueMutex`, and `attach_now` looks for
its block and takes it out of the queue without locking anything.  Here these are steps of their
own, and the calls of `add_block` and `attach_now`, the daemon and the closing thread take their
steps in any order.

* `exec_safe` says that the queue is safe (no null block gets into it, and its front is not taken
  when it is empty) in every run in which the daemon and the closing thread leave a block to those
  who have looked for it: the condition is `Undisturbed`.
* `exists_fault` says that the condition is exact: after a step that does not meet it, a few
  steps of the other threads lead to a fault.
-/

set_option autoImplicit false

namespace Blockchain

variable {H : HashLib} {s t : Chain} {p q : BlockPtr} {n k : ℤ} {pick seed : ℕ}

/-! ## The threads -/

/-- Where the daemon is. -/
inductive DaemonPlace
  /-- At the head of the loop. -/
  | head
  /-- Before the test whether the queue is empty. -/
  | test
  /-- Waiting for `queueMutex`. -/
  | lock
  /-- About to take the front block. -/
  | take
  /-- About to release `queueMutex`. -/
  | unlock
  /-- The loop is over. -/
  | ended
  deriving DecidableEq, Repr

/-- Where the closing thread is. -/
inductive CloserPlace
  /-- `close_chain` has not been called. -/
  | absent
  /-- Waiting for `queueMutex`. -/
  | lock
  /-- In the loop. -/
  | drain
  /-- About to release `queueMutex`. -/
  | unlock
  /-- About to reset everything. -/
  | reset
  /-- The thread is over. -/
  | ended
  deriving DecidableEq, Repr

/-- What must not happen to the queue. -/
inductive Fault
  /-- `attach_now` puts a null block into it. -/
  | nullQueued
  /-- The daemon takes the front of an empty queue. -/
  | frontOfEmpty
  deriving DecidableEq, Repr

/-- The chain and its threads. -/
structure Threads where
  /-- The global variables. -/
  chain : Chain
  /-- Is `queueMutex` held? -/
  queueMutex : Bool
  /-- The daemon. -/
  daemon : DaemonPlace
  /-- The closing thread. -/
  closer : CloserPlace
  /-- The calls of `attach_now` that have found their block in the queue and not yet moved it. -/
  attaching : ℕ → Option ℤ
  /-- What has gone wrong, if anything has. -/
  fault : Option Fault

/-- An event: a call, a step of a call of `attach_now`, or the next step of one of the threads. -/
inductive ThreadEvent
  /-- A call of `add_block`. -/
  | addBlock (data : Option (List UInt8)) (length : ℤ) (pick : ℕ)
  /-- A call of `attach_now` up to its look into the queue. -/
  | find (c : ℕ) (blockNum : ℤ)
  /-- The call moves its block to the front. -/
  | move (c : ℕ)
  /-- The call of `close_chain`. -/
  | close
  /-- The daemon's next step. -/
  | daemon (pick seed : ℕ)
  /-- The closing thread's next step. -/
  | closer (pick seed : ℕ)
  deriving DecidableEq, Repr

/-- The first part of `attach_now`: it goes on to move the block. -/
def AttachFinds (s : Chain) (blockNum : ℤ) : Prop :=
  ¬(!s.isInitiated || s.currentlyBlocked) = true ∧ blockNum ∉ s.blockMap ∧
    s.isInDaemon ≠ blockNum ∧ existBlock s blockNum ≠ fail

instance (s : Chain) (blockNum : ℤ) : Decidable (AttachFinds s blockNum) :=
  inferInstanceAs (Decidable (_ ∧ _ ∧ _ ∧ _))

/-- The daemon's next step. -/
def Threads.daemonStep (H : HashLib) (m : Threads) (pick seed : ℕ) : Option Threads :=
  match m.daemon with
  | .head => some { m with daemon := if m.chain.currentlyBlocked then .ended else .test }
  | .test => some { m with daemon := if m.chain.blockQueue = [] then .head else .lock }
  | .lock => if m.queueMutex then none else some { m with queueMutex := true, daemon := .take }
  | .take =>
    if m.chain.blockQueue = [] then some { m with fault := some .frontOfEmpty }
    else some { m with chain := (daemonFunction H m.chain pick seed).2, daemon := .unlock }
  | .unlock => some { m with queueMutex := false, daemon := .head }
  | .ended => none

/-- The closing thread's next step. -/
def Threads.closerStep (H : HashLib) (m : Threads) (pick seed : ℕ) : Option Threads :=
  match m.closer with
  | .absent => none
  | .lock => if m.queueMutex then none else some { m with queueMutex := true, closer := .drain }
  | .drain =>
    if m.chain.blockQueue = [] then some { m with closer := .unlock }
    else some { m with chain := (drainBlock H m.chain pick seed).2 }
  | .unlock => some { m with queueMutex := false, closer := .reset }
  | .reset => some { m with chain := resetChain m.chain, closer := .ended }
  | .ended => none

/-- What happens at an event. -/
def Threads.act (H : HashLib) (m : Threads) : ThreadEvent → Option Threads
  | .addBlock data length pick => some { m with chain := (addBlock m.chain data length pick).2 }
  | .find c blockNum =>
    if m.attaching c ≠ none then none
    else if AttachFinds m.chain blockNum then
      some { m with attaching := Function.update m.attaching c (some blockNum) }
    else some m
  | .move c =>
    match m.attaching c with
    | none => none
    | some blockNum =>
      match popBlock m.chain blockNum with
      | (none, _) => some { m with fault := some .nullQueued }
      | (some p, s) => some { m with
          chain := { s with blockQueue := p :: s.blockQueue }
          attaching := Function.update m.attaching c none }
  | .close =>
    if m.closer ≠ .absent then none
    else if m.chain.isInitiated then
      some { m with chain := closeChain m.chain, closer := .lock }
    else some m
  | .daemon pick seed => m.daemonStep H pick seed
  | .closer pick seed => m.closerStep H pick seed

/-- The program goes on as long as nothing has gone wrong. -/
def Threads.step (H : HashLib) (m : Threads) (e : ThreadEvent) : Option Threads :=
  if m.fault.isSome then none else m.act H e

/-- An open chain whose daemon has just been started. -/
def Threads.start (s : Chain) : Threads :=
  ⟨s, false, .head, .absent, fun _ ↦ none, none⟩

/-- The two parts make up `attach_now`. -/
theorem attachNow_eq_attachFinds (s : Chain) (n : ℤ) : (attachNow s n).2 =
    if AttachFinds s n then
      match popBlock s n with
      | (none, s) => s
      | (some p, s) => { s with blockQueue := p :: s.blockQueue }
    else s := by
  by_cases h : AttachFinds s n
  · obtain ⟨h1, h2, h3, h4⟩ := h
    rw [attachNow, if_neg h1, if_neg h2, if_neg h3, if_neg h4, if_pos ⟨h1, h2, h3, h4⟩]
    rcases popBlock s n with ⟨_ | p, t⟩ <;> rfl
  · rw [if_neg h, attachNow]
    split_ifs with h1 h2 h3 h4
    · rfl
    · rfl
    · rfl
    · rfl
    · exact absurd ⟨h1, h2, h3, h4⟩ h

/-! ## Safe runs -/

/-- Nobody takes a block somebody has just looked for: the daemon and the closing thread do not take
a block that a call of `attach_now` has found and not yet moved, and the closing thread does not
take the last block while the daemon is between its test and its `front`. -/
def Undisturbed (m : Threads) : ThreadEvent → Prop
  | .daemon _ _ => m.daemon = .take →
    ∀ p, m.chain.blockQueue.head? = some p → ∀ c, m.attaching c ≠ some (m.chain.heap p).index
  | .closer _ _ => m.closer = .drain →
    (∀ p, m.chain.blockQueue.head? = some p → ∀ c, m.attaching c ≠ some (m.chain.heap p).index) ∧
      (m.daemon = .lock ∨ m.daemon = .take → m.chain.blockQueue.length ≠ 1)
  | _ => True

/-- What `addAndHash` leaves alone. -/
structure HashFrame (s t : Chain) : Prop where
  /-- The queue. -/
  queue : t.blockQueue = s.blockQueue
  /-- The numbers in use. -/
  listed : t.vecIndex = s.vecIndex
  /-- The next free address. -/
  brk : t.brk = s.brk
  /-- The blocks' numbers. -/
  index : ∀ r, (t.heap r).index = (s.heap r).index
  /-- Whether the chain is open. -/
  initiated : t.isInitiated = s.isInitiated
  /-- Whether it is being closed. -/
  blocked : t.currentlyBlocked = s.currentlyBlocked

theorem HashFrame.trans {u : Chain} (h : HashFrame s t) (h' : HashFrame t u) : HashFrame s u :=
  ⟨h'.queue.trans h.queue, h'.listed.trans h.listed, h'.brk.trans h.brk,
    fun r ↦ (h'.index r).trans (h.index r), h'.initiated.trans h.initiated,
    h'.blocked.trans h.blocked⟩

theorem hashFrame_update (s : Chain) (p : BlockPtr) {b : Block} (hb : b.index = (s.heap p).index)
    (m : Std.TreeMap ℤ BlockPtr) :
    HashFrame s { s with heap := Function.update s.heap p b, blockMap := m } := by
  refine ⟨rfl, rfl, rfl, fun r ↦ ?_, rfl, rfl⟩
  by_cases hr : r = p
  · simp [hr, hb]
  · simp [hr]

theorem addAndHash_frame (s : Chain) (p : BlockPtr) (pick seed : ℕ) :
    HashFrame s (addAndHash H s p pick seed).2 := by
  have hnoted : HashFrame s { s with isInDaemon := (s.heap p).index } :=
    ⟨rfl, rfl, rfl, fun _ ↦ rfl, rfl, rfl⟩
  have hlink : ∀ (u : Chain) k, HashFrame u (linkBlock H u p k seed).2 := fun u k ↦ by
    rw [linkBlock_eq]
    exact hashFrame_update u p (by rfl) _
  have hprepare : HashFrame s (prepareBlock H s p pick seed).2.2 := by
    rw [prepareBlock]
    dsimp only
    split
    · split
      · exact hnoted
      · split
        · exact hnoted
        · exact (hnoted.trans (hashFrame_update _ p (by rfl) _)).trans (hlink _ _)
    · exact hnoted.trans (hlink _ _)
  rw [addAndHash]
  dsimp only
  split
  · exact hprepare.trans ⟨rfl, rfl, rfl, fun _ ↦ rfl, rfl, rfl⟩
  · exact hprepare

/-- Taking the front block leaves the others as they are. -/
theorem drainBlock_cons {rest : List BlockPtr} (hq : s.blockQueue = p :: rest) (pick seed : ℕ) :
    HashFrame { s with blockQueue := rest } (drainBlock H s pick seed).2 := by
  rw [drainBlock, hq]
  simp only [List.head?_cons, popBlock_head hq]
  exact addAndHash_frame _ p pick seed

theorem daemonFunction_cons {rest : List BlockPtr} (hq : s.blockQueue = p :: rest)
    (pick seed : ℕ) :
    HashFrame { s with blockQueue := rest } (daemonFunction H s pick seed).2 := by
  rw [daemonFunction, hq]
  simp only [List.head?_cons, popBlock_head hq]
  have h := addAndHash_frame (H := H) { s with blockQueue := rest } p pick seed
  exact ⟨h.queue, h.listed, h.brk, h.index, h.initiated, h.blocked⟩

/-- Another block is still pending. -/
theorem Chain.Pending.of_frame {rest : List BlockPtr} (hn : s.Pending n)
    (hq : s.blockQueue = p :: rest) (hf : HashFrame { s with blockQueue := rest } t)
    (hp : n ≠ (s.heap p).index) : t.Pending n := by
  obtain ⟨q, hqm, rfl⟩ := hn
  rw [hq] at hqm
  rcases List.mem_cons.mp hqm with rfl | hqm
  · exact absurd rfl hp
  · exact ⟨q, by rw [hf.queue]; exact hqm, hf.index q⟩

/-- What `add_block` leaves behind, whatever the state of the chain is. -/
theorem addBlock_snd_cases (s : Chain) (data : Option (List UInt8)) (length : ℤ) (pick : ℕ) :
    (addBlock s data length pick).2 = s ∨
      ¬(!s.isInitiated || s.currentlyBlocked) = true ∧
        ((addBlock s data length pick).2 =
            { s with vecIndex := s.vecIndex.insertionSort (· ≤ ·) } ∨
          ∃ f d, (addBlock s data length pick).2 = s.added data length f d) := by
  rw [addBlock]
  split
  · exact .inl rfl
  · rename_i hopen
    refine .inr ⟨hopen, ?_⟩
    dsimp only
    rw [createBlock]
    split
    · exact .inl rfl
    · split
      · exact .inl rfl
      · exact .inr ⟨_, _, rfl⟩

variable {m m' : Threads} {e : ThreadEvent}

/-- Does the daemon hold `queueMutex`? -/
def DaemonPlace.holds : DaemonPlace → Bool
  | .take | .unlock => true
  | _ => false

/-- Does the closing thread hold `queueMutex`? -/
def CloserPlace.holds : CloserPlace → Bool
  | .drain | .unlock => true
  | _ => false

/-- Has the closing thread been through the queue? -/
def CloserPlace.isDone : CloserPlace → Bool
  | .unlock | .reset | .ended => true
  | _ => false

/-- The queue of a chain and its numbers. -/
structure Queued (s : Chain) : Prop where
  /-- A pending block has been made. -/
  lt_brk : ∀ p ∈ s.blockQueue, p < s.brk
  /-- No two pending blocks share a number. -/
  distinct : (s.blockQueue.map fun p ↦ (s.heap p).index).Nodup
  /-- The numbers of the pending blocks are in use. -/
  listed : ∀ p ∈ s.blockQueue, (s.heap p).index ∈ s.vecIndex
  /-- No number is listed twice. -/
  nodup : s.vecIndex.Nodup
  /-- The numbers in use are not negative. -/
  nonneg : ∀ v ∈ s.vecIndex, 0 ≤ v

/-- The invariant of all runs. -/
structure Threads.Sound (m : Threads) : Prop where
  /-- The queue and its numbers. -/
  queued : Queued m.chain
  /-- From `close_chain` on, the chain is not open. -/
  closed : m.closer ≠ .absent → (!m.chain.isInitiated || m.chain.currentlyBlocked) = true
  /-- The closing thread leaves an empty queue behind. -/
  drained : m.closer.isDone = true → m.chain.blockQueue = []
  /-- `queueMutex` is held by one of the threads. -/
  mutex : m.queueMutex = (m.daemon.holds || m.closer.holds)
  /-- It is held by one of them only. -/
  exclusive : (m.daemon.holds && m.closer.holds) = false

theorem Queued.perm {l : List BlockPtr} (h : Queued s) (hl : l.Perm s.blockQueue) :
    Queued { s with blockQueue := l } :=
  ⟨fun p hp ↦ h.lt_brk p (hl.mem_iff.mp hp), (hl.map _).nodup_iff.mpr h.distinct,
    fun p hp ↦ h.listed p (hl.mem_iff.mp hp), h.nodup, h.nonneg⟩

theorem Queued.tail {rest : List BlockPtr} (h : Queued s) (hq : s.blockQueue = p :: rest) :
    Queued { s with blockQueue := rest } := by
  have hmem : ∀ r ∈ rest, r ∈ s.blockQueue := fun r hr ↦ by
    rw [hq]
    exact List.mem_cons_of_mem _ hr
  have hd := h.distinct
  rw [hq] at hd
  exact ⟨fun r hr ↦ h.lt_brk r (hmem r hr), hd.of_cons, fun r hr ↦ h.listed r (hmem r hr),
    h.nodup, h.nonneg⟩

theorem Queued.of_frame (h : Queued s) (hf : HashFrame s t) : Queued t := by
  have hindex : (fun p ↦ (t.heap p).index) = fun p ↦ (s.heap p).index := funext hf.index
  refine ⟨fun p hp ↦ ?_, ?_, fun p hp ↦ ?_, ?_, ?_⟩
  · rw [hf.brk]
    exact h.lt_brk p (hf.queue ▸ hp)
  · rw [hindex, hf.queue]
    exact h.distinct
  · rw [hf.listed, hf.index]
    exact h.listed p (hf.queue ▸ hp)
  · rw [hf.listed]
    exact h.nodup
  · rw [hf.listed]
    exact h.nonneg

/-- A new block has a number that no pending block has. -/
theorem Queued.added {data : Option (List UInt8)} {length f d : ℤ} (h : Queued s) :
    Queued (s.added data length f d) := by
  have hnew := (s.isLeast_minIdx h.nodup h.nonneg).1.2
  have hindex : ∀ p ∈ s.blockQueue, ((s.added data length f d).heap p).index =
      (s.heap p).index := fun p hp ↦ by rw [added_heap_of_lt _ _ _ _ (h.lt_brk p hp)]
  have hmap : ((s.added data length f d).blockQueue.map fun p ↦
      ((s.added data length f d).heap p).index) =
        (s.blockQueue.map fun p ↦ (s.heap p).index) ++ [s.minIdx] := by
    rw [show (s.added data length f d).blockQueue = s.blockQueue ++ [s.brk] from rfl,
      List.map_append, List.map_congr_left hindex, List.map_singleton, index_added_self]
  refine ⟨fun p hp ↦ ?_, ?_, fun p hp ↦ ?_, nodup_vecIndex_added h.nodup h.nonneg,
    fun v ↦ nonneg_of_mem_added h.nonneg⟩
  · rcases mem_blockQueue_added.mp hp with hp | rfl
    · exact (h.lt_brk p hp).trans (Nat.lt_succ_self _)
    · exact Nat.lt_succ_self _
  · rw [hmap]
    refine List.nodup_append.mpr ⟨h.distinct, List.nodup_singleton _, fun a ha b hb heq ↦ ?_⟩
    obtain ⟨p, hp, rfl⟩ := List.mem_map.mp ha
    rw [List.mem_singleton.mp hb] at heq
    exact hnew (heq ▸ h.listed p hp)
  · rcases mem_blockQueue_added.mp hp with hp | rfl
    · rw [hindex p hp]
      exact mem_vecIndex_added.mpr (.inl (h.listed p hp))
    · rw [index_added_self]
      exact mem_vecIndex_added.mpr (.inr rfl)

theorem Queued.addBlock (h : Queued s) (data : Option (List UInt8)) (length : ℤ) (pick : ℕ) :
    Queued (addBlock s data length pick).2 := by
  have hperm := List.perm_insertionSort (· ≤ ·) s.vecIndex
  have hsorted : Queued { s with vecIndex := s.vecIndex.insertionSort (· ≤ ·) } :=
    ⟨h.lt_brk, h.distinct, fun p hp ↦ hperm.mem_iff.mpr (h.listed p hp),
      hperm.nodup_iff.mpr h.nodup, fun v hv ↦ h.nonneg v (hperm.mem_iff.mp hv)⟩
  rcases addBlock_snd_cases s data length pick with heq | ⟨-, heq | ⟨f, d, heq⟩⟩
  · rwa [heq]
  · rwa [heq]
  · rw [heq]
    exact h.added

/-- The invariant of the safe runs. -/
structure Threads.Safe (m : Threads) : Prop where
  /-- Nothing has gone wrong. -/
  fault : m.fault = none
  /-- The blocks that were found are there. -/
  found : ∀ c n, m.attaching c = some n → m.chain.Pending n
  /-- The daemon waits for the front block of a queue that is not empty. -/
  waiting : m.daemon = .lock ∨ m.daemon = .take → m.chain.blockQueue ≠ []

/-- The daemon keeps the queue safe. -/
theorem Threads.Safe.daemonStep (hs : m.Safe) (hok : Undisturbed m (.daemon pick seed))
    (hst : m.daemonStep H pick seed = some m') : m'.Safe := by
  rw [Threads.daemonStep] at hst
  split at hst
  · cases hst
    refine ⟨hs.fault, hs.found, fun h ↦ ?_⟩
    dsimp only at h
    split at h <;> simp at h
  · cases hst
    refine ⟨hs.fault, hs.found, fun h hq ↦ ?_⟩
    dsimp only at h hq
    rw [if_pos hq] at h
    simp at h
  · rename_i hd
    split at hst
    · cases hst
    · cases hst
      exact ⟨hs.fault, hs.found, fun _ ↦ hs.waiting (.inl hd)⟩
  · rename_i hd
    -- there is a front block, and no call waits to move it
    have hne := hs.waiting (.inr hd)
    rw [if_neg hne] at hst
    cases hst
    obtain ⟨p, rest, hq⟩ := List.exists_cons_of_ne_nil hne
    refine ⟨hs.fault, fun c n hc ↦ ?_, fun h ↦ by simp at h⟩
    refine (hs.found c n hc).of_frame hq (daemonFunction_cons hq pick seed) fun hn ↦ ?_
    exact hok hd p (by rw [hq]; rfl) c (by rw [← hn]; exact hc)
  · cases hst
    exact ⟨hs.fault, hs.found, fun h ↦ by simp at h⟩
  · cases hst

/-- The closing thread keeps the queue safe. -/
theorem Threads.Safe.closerStep (hs : m.Safe) (hok : Undisturbed m (.closer pick seed))
    (hst : m.closerStep H pick seed = some m') : m'.Safe := by
  rw [Threads.closerStep] at hst
  split at hst
  · cases hst
  · split at hst
    · cases hst
    · cases hst
      exact ⟨hs.fault, hs.found, hs.waiting⟩
  · rename_i hc
    split at hst
    · cases hst
      exact ⟨hs.fault, hs.found, hs.waiting⟩
    · rename_i hne
      cases hst
      obtain ⟨p, rest, hq⟩ := List.exists_cons_of_ne_nil hne
      obtain ⟨hmove, hlast⟩ := hok hc
      have hf := drainBlock_cons (H := H) hq pick seed
      refine ⟨hs.fault, fun c n hcn ↦ ?_, fun h hnil ↦ ?_⟩
      · refine (hs.found c n hcn).of_frame hq hf fun hn ↦ ?_
        exact hmove p (by rw [hq]; rfl) c (by rw [← hn]; exact hcn)
      · have hrest : rest = [] := hf.queue.symm.trans hnil
        exact hlast h (by rw [hq, hrest]; rfl)
  · cases hst
    exact ⟨hs.fault, hs.found, hs.waiting⟩
  · cases hst
    exact ⟨hs.fault, hs.found, hs.waiting⟩
  · cases hst

theorem Threads.Sound.daemonStep (hs : m.Sound) (hst : m.daemonStep H pick seed = some m') :
    m'.Sound := by
  obtain ⟨hqueued, hclosed, hdrained, hmutex, hexcl⟩ := hs
  rw [Threads.daemonStep] at hst
  split at hst
  · rename_i hd
    cases hst
    rw [hd] at hmutex
    refine ⟨hqueued, hclosed, hdrained, ?_, ?_⟩
    · dsimp only
      split <;> exact hmutex
    · dsimp only
      split <;> rfl
  · rename_i hd
    cases hst
    rw [hd] at hmutex
    refine ⟨hqueued, hclosed, hdrained, ?_, ?_⟩
    · dsimp only
      split <;> exact hmutex
    · dsimp only
      split <;> rfl
  · rename_i hd
    split at hst
    · cases hst
    · rename_i hfree
      cases hst
      -- nobody holds the mutex, so the closing thread does not
      rw [Bool.not_eq_true] at hfree
      rw [hfree, hd] at hmutex
      have hc : m.closer.holds = false := hmutex.symm
      exact ⟨hqueued, hclosed, hdrained, by rw [hc]; rfl, by rw [hc]; rfl⟩
  · rename_i hd
    rw [hd] at hmutex hexcl
    split at hst
    · cases hst
      exact ⟨hqueued, hclosed, hdrained, by rw [hd]; exact hmutex, by rw [hd]; exact hexcl⟩
    · rename_i hne
      cases hst
      obtain ⟨p, rest, hq⟩ := List.exists_cons_of_ne_nil hne
      have hf := daemonFunction_cons (H := H) hq pick seed
      refine ⟨(hqueued.tail hq).of_frame hf, fun h ↦ ?_, fun h ↦ ?_, hmutex, hexcl⟩
      · dsimp only
        rw [hf.initiated, hf.blocked]
        exact hclosed h
      · exact absurd (hdrained h) hne
  · rename_i hd
    cases hst
    rw [hd] at hexcl
    have hc : m.closer.holds = false := hexcl
    exact ⟨hqueued, hclosed, hdrained, by rw [hc]; rfl, rfl⟩
  · cases hst

theorem Threads.Sound.closerStep (hs : m.Sound) (hst : m.closerStep H pick seed = some m') :
    m'.Sound := by
  obtain ⟨hqueued, hclosed, hdrained, hmutex, hexcl⟩ := hs
  rw [Threads.closerStep] at hst
  split at hst
  · cases hst
  · rename_i hc
    split at hst
    · cases hst
    · rename_i hfree
      cases hst
      rw [Bool.not_eq_true] at hfree
      rw [hfree, hc] at hmutex
      have hd : m.daemon.holds = false := (Bool.or_false _).symm.trans hmutex.symm
      exact ⟨hqueued, fun _ ↦ hclosed (by simp [hc]), fun h ↦ (by cases h), by rw [hd]; rfl,
        by rw [hd]; rfl⟩
  · rename_i hc
    rw [hc] at hmutex hexcl
    split at hst
    · rename_i hnil
      cases hst
      exact ⟨hqueued, fun _ ↦ hclosed (by simp [hc]), fun _ ↦ hnil, hmutex, hexcl⟩
    · rename_i hne
      cases hst
      obtain ⟨p, rest, hq⟩ := List.exists_cons_of_ne_nil hne
      have hf := drainBlock_cons (H := H) hq pick seed
      refine ⟨(hqueued.tail hq).of_frame hf, fun h ↦ ?_, fun h ↦ ?_, by rw [hc]; exact hmutex,
        by rw [hc]; exact hexcl⟩
      · dsimp only
        rw [hf.initiated, hf.blocked]
        exact hclosed h
      · dsimp only at h
        rw [hc] at h
        cases h
  · rename_i hc
    cases hst
    rw [hc] at hexcl
    have hd : m.daemon.holds = false := (Bool.and_true _).symm.trans hexcl
    exact ⟨hqueued, fun _ ↦ hclosed (by simp [hc]), fun _ ↦ hdrained (by rw [hc]; rfl),
      by rw [hd]; rfl, by rw [hd]; rfl⟩
  · rename_i hc
    cases hst
    have hnil := hdrained (by rw [hc]; rfl)
    rw [hc] at hmutex hexcl
    refine ⟨⟨?_, ?_, ?_, List.nodup_nil, ?_⟩, fun _ ↦ rfl, fun _ ↦ hnil, hmutex, hexcl⟩
    · simp [resetChain, hnil]
    · simp [resetChain, hnil]
    · simp [resetChain, hnil]
    · simp [resetChain]
  · cases hst

/-- **The step lemma of all runs.** -/
theorem Threads.Sound.step (hs : m.Sound) (hst : m.step H e = some m') : m'.Sound := by
  rw [Threads.step] at hst
  split at hst
  · cases hst
  match e with
  | .addBlock data length pick =>
    rw [Threads.act] at hst
    cases hst
    rcases addBlock_snd_cases m.chain data length pick with heq | ⟨hopen, -⟩
    · rw [heq]
      exact hs
    · have hc : m.closer = .absent := by
        by_contra hc
        exact hopen (hs.closed hc)
      refine ⟨hs.queued.addBlock data length pick, fun h ↦ absurd hc h, fun h ↦ ?_, hs.mutex,
        hs.exclusive⟩
      rw [hc] at h
      cases h
  | .find c blockNum =>
    rw [Threads.act] at hst
    split_ifs at hst
    · cases hst
      exact ⟨hs.queued, hs.closed, hs.drained, hs.mutex, hs.exclusive⟩
    · cases hst
      exact hs
  | .move c =>
    rw [Threads.act] at hst
    split at hst
    · cases hst
    rename_i n hn
    by_cases hp : m.chain.Pending n
    · obtain ⟨l, p, l', hl, hall, hpn⟩ := hp.exists_split
      rw [popBlock_of_split hl hall hpn] at hst
      cases hst
      have hperm : (p :: (l ++ l')).Perm m.chain.blockQueue := by
        rw [hl]
        exact List.perm_middle.symm
      refine ⟨hs.queued.perm hperm, hs.closed, fun h ↦ ?_, hs.mutex, hs.exclusive⟩
      have hnil := hs.drained h
      rw [hl] at hnil
      simp at hnil
    · rw [popBlock_of_not_pending hp] at hst
      cases hst
      exact ⟨hs.queued, hs.closed, hs.drained, hs.mutex, hs.exclusive⟩
  | .close =>
    rw [Threads.act] at hst
    split at hst
    · cases hst
    rename_i hc
    rw [ne_eq, not_not] at hc
    split at hst
    · rename_i hinit
      cases hst
      have hclose : closeChain m.chain = { m.chain with currentlyBlocked := true } := if_pos hinit
      have hmutex := hs.mutex
      have hexcl := hs.exclusive
      rw [hc] at hmutex hexcl
      rw [hclose]
      exact ⟨⟨hs.queued.lt_brk, hs.queued.distinct, hs.queued.listed, hs.queued.nodup,
        hs.queued.nonneg⟩, fun _ ↦ Bool.or_true _, fun h ↦ (by cases h), hmutex, hexcl⟩
    · cases hst
      exact hs
  | .daemon pick seed => exact hs.daemonStep hst
  | .closer pick seed => exact hs.closerStep hst

/-- **The step lemma of the safe runs.** -/
theorem Threads.Safe.step (hs : m.Safe) (hm : m.Sound) (hok : Undisturbed m e)
    (hst : m.step H e = some m') : m'.Safe := by
  rw [Threads.step, hs.fault, Option.isSome_none, if_neg Bool.false_ne_true] at hst
  match e with
  | .addBlock data length pick =>
    rw [Threads.act] at hst
    cases hst
    rcases addBlock_snd_cases m.chain data length pick with heq | ⟨-, heq | ⟨f, d, heq⟩⟩
    · rw [heq]
      exact hs
    · rw [heq]
      exact ⟨hs.fault, hs.found, hs.waiting⟩
    · rw [heq]
      refine ⟨hs.fault, fun c n hc ↦ ?_, fun _ ↦ by simp [Chain.added, Chain.created]⟩
      obtain ⟨p, hp, rfl⟩ := hs.found c n hc
      refine ⟨p, List.mem_append_left _ hp, ?_⟩
      rw [added_heap_of_lt _ _ _ _ (hm.queued.lt_brk p hp)]
  | .find c blockNum =>
    rw [Threads.act] at hst
    split_ifs at hst with hc hfind
    · cases hst
      refine ⟨hs.fault, fun d n hd ↦ ?_, hs.waiting⟩
      dsimp only at hd
      by_cases hdc : d = c
      · rw [hdc, Function.update_self] at hd
        cases hd
        by_contra hp
        exact hfind.2.2.2 (existBlock_eq_fail_iff.mpr hp)
      · rw [Function.update_of_ne hdc] at hd
        exact hs.found d n hd
    · cases hst
      exact hs
  | .move c =>
    rw [Threads.act] at hst
    split at hst
    · cases hst
    rename_i n hn
    obtain ⟨l, p, l', hl, hall, hpn⟩ := (hs.found c n hn).exists_split
    rw [popBlock_of_split hl hall hpn] at hst
    cases hst
    refine ⟨hs.fault, fun d k hd ↦ ?_, fun _ ↦ List.cons_ne_nil _ _⟩
    dsimp only at hd
    by_cases hdc : d = c
    · rw [hdc, Function.update_self] at hd
      cases hd
    · rw [Function.update_of_ne hdc] at hd
      obtain ⟨q, hq, rfl⟩ := hs.found d k hd
      rw [hl] at hq
      exact ⟨q, (List.perm_middle.mem_iff).mp hq, rfl⟩
  | .close =>
    rw [Threads.act] at hst
    split_ifs at hst with hc hinit
    · cases hst
      have hclose : closeChain m.chain = { m.chain with currentlyBlocked := true } := if_pos hinit
      rw [hclose]
      exact ⟨hs.fault, hs.found, hs.waiting⟩
    · cases hst
      exact hs
  | .daemon pick seed => exact hs.daemonStep hok hst
  | .closer pick seed => exact hs.closerStep hok hst

/-! ## The condition is exact -/

/-- The number of the block that was taken is not pending any more. -/
theorem Queued.not_pending {rest : List BlockPtr} (h : Queued s) (hq : s.blockQueue = p :: rest)
    (hf : HashFrame { s with blockQueue := rest } t) : ¬t.Pending (s.heap p).index := by
  rintro ⟨r, hr, hrp⟩
  have hd := h.distinct
  rw [hq, List.map_cons] at hd
  refine (List.nodup_cons.mp hd).1 (List.mem_map.mpr ⟨r, ?_, (hf.index r).symm.trans hrp⟩)
  rw [hf.queue] at hr
  exact hr

/-- A call whose block is gone queues a null block. -/
theorem exec_move_null {c : ℕ} (hf : m.fault = none) (hc : m.attaching c = some n)
    (hp : ¬m.chain.Pending n) :
    Run.exec (Threads.step H) m [.move c] = some { m with fault := some .nullQueued } := by
  simp [Run.exec, Threads.step, Threads.act, hf, hc, popBlock_of_not_pending hp]

/-- When the closing thread has emptied the queue, the daemon gets the mutex, and takes the front of
an empty queue. -/
theorem exec_take_empty (hf : m.fault = none) (hc : m.closer = .drain) (hd : m.daemon = .lock)
    (hq : m.chain.blockQueue = []) :
    Run.exec (Threads.step H) m [.closer 0 0, .closer 0 0, .daemon 0 0, .daemon 0 0] =
      some { m with
        queueMutex := true, daemon := .take, closer := .reset, fault := some .frontOfEmpty } := by
  simp [Run.exec, Threads.step, Threads.act, Threads.daemonStep, Threads.closerStep, hf, hc, hd, hq]

/-- **After a step that does not meet the condition, the threads can run into a fault.** -/
theorem Threads.Safe.exists_fault (hs : m.Safe) (hm : m.Sound) (hst : m.step H e = some m')
    (hno : ¬Undisturbed m e) :
    ∃ fs u, Run.exec (Threads.step H) m' fs = some u ∧ u.fault ≠ none := by
  rw [Threads.step, hs.fault, Option.isSome_none, if_neg Bool.false_ne_true] at hst
  match e with
  | .addBlock .. | .find .. | .move .. | .close => exact absurd trivial hno
  | .daemon pick seed =>
    rw [Undisturbed] at hno
    push Not at hno
    obtain ⟨hd, p, hp, c, hc⟩ := hno
    obtain ⟨rest, hq⟩ := List.head?_eq_some_iff.mp hp
    have hne := hs.waiting (.inr hd)
    rw [Threads.act, Threads.daemonStep, hd] at hst
    simp only [if_neg hne] at hst
    cases hst
    have hgone := hm.queued.not_pending hq (daemonFunction_cons (H := H) hq pick seed)
    exact ⟨_, _, exec_move_null (c := c) hs.fault hc hgone, by simp⟩
  | .closer pick seed =>
    rw [Undisturbed, Classical.not_imp, not_and_or] at hno
    obtain ⟨hcl, hno⟩ := hno
    have hne : m.chain.blockQueue ≠ [] := by
      rintro hnil
      rcases hno with hno | hno <;> exact hno (by simp [hnil])
    rw [Threads.act, Threads.closerStep, hcl] at hst
    simp only [if_neg hne] at hst
    cases hst
    rcases hno with hno | hno
    · push Not at hno
      obtain ⟨p, hp, c, hc⟩ := hno
      obtain ⟨rest, hq⟩ := List.head?_eq_some_iff.mp hp
      have hgone := hm.queued.not_pending hq (drainBlock_cons (H := H) hq pick seed)
      exact ⟨_, _, exec_move_null (c := c) hs.fault hc hgone, by simp⟩
    · push Not at hno
      obtain ⟨hd, hlen⟩ := hno
      obtain ⟨p, hq⟩ := List.length_eq_one_iff.mp hlen
      have hlock : m.daemon = .lock := by
        refine hd.resolve_right fun htake ↦ ?_
        have hexcl := hm.exclusive
        rw [htake, hcl] at hexcl
        cases hexcl
      have hf := drainBlock_cons (H := H) hq pick seed
      exact ⟨_, _, exec_take_empty hs.fault rfl hlock hf.queue, by simp⟩

/-! ## Runs -/

theorem Threads.start_safe {s₀ : Chain}
    (h0 : initBlockchain Chain.fresh true = (.ret success, s₀)) :
    (Threads.start s₀).Safe ∧ (Threads.start s₀).Sound := by
  have hs₀ := (Prod.mk.inj h0).2
  have hqueue : s₀.blockQueue = [] := by rw [← hs₀]; rfl
  have hlist : s₀.vecIndex = [0] := by rw [← hs₀]; rfl
  refine ⟨⟨rfl, fun c n hc ↦ ?_, fun h ↦ ?_⟩, ⟨?_, fun h ↦ absurd rfl h, fun _ ↦ hqueue, rfl, rfl⟩⟩
  · cases hc
  · simp [Threads.start] at h
  · constructor <;> simp [Threads.start, hqueue, hlist]

/-- **The queue is safe when nobody takes a block somebody has looked for**, in every run; and after
a run in which this was so, a step that is not so has a continuation that ends with a null block in
the queue or with the front of an empty queue. -/
theorem exec_safe {s₀ : Chain} (h0 : initBlockchain Chain.fresh true = (.ret success, s₀)) :
    (∀ es m, Run.exec (Threads.step H) (.start s₀) es = some m →
        Run.Meets (Threads.step H) Undisturbed (.start s₀) es → m.fault = none) ∧
      ∀ es m e m', Run.exec (Threads.step H) (.start s₀) es = some m →
        Run.Meets (Threads.step H) Undisturbed (.start s₀) es → m.step H e = some m' →
          ¬Undisturbed m e →
            ∃ fs u, Run.exec (Threads.step H) m' fs = some u ∧ u.fault ≠ none := by
  have hrun : ∀ {es m}, Run.exec (Threads.step H) (.start s₀) es = some m →
      Run.Meets (Threads.step H) Undisturbed (.start s₀) es → m.Safe ∧ m.Sound := by
    intro es m h hmeets
    refine Run.meets_induction (I := fun m ↦ Threads.Safe m ∧ Threads.Sound m) ?_
      (Threads.start_safe h0) hmeets h
    exact fun _ _ _ hs hok hst ↦ ⟨hs.1.step hs.2 hok hst, hs.2.step hst⟩
  refine ⟨fun es m h hmeets ↦ (hrun h hmeets).1.fault, fun es m e m' h hmeets hst hno ↦ ?_⟩
  obtain ⟨hsafe, hsound⟩ := hrun h hmeets
  exact hsafe.exists_fault hsound hst hno

/-- A call of `attach_now` finds block 1, and the daemon takes it. -/
def takenEvents : List ThreadEvent :=
  [.addBlock none 0 0, .find 0 1, .daemon 0 0, .daemon 0 0, .daemon 0 0, .daemon 0 0, .move 0]

/-- The daemon sees that the queue is not empty, and the closing thread empties it. -/
def drainedEvents : List ThreadEvent :=
  [.addBlock none 0 0, .daemon 0 0, .daemon 0 0, .close, .closer 0 0, .closer 0 0, .closer 0 0,
    .closer 0 0, .daemon 0 0, .daemon 0 0]

theorem exec_takenEvents :
    ∃ m, Run.exec (Threads.step plainHash) (.start (initBlockchain Chain.fresh true).2)
      takenEvents = some m ∧ m.fault = some .nullQueued := by
  rw [← Option.map_eq_some_iff]
  decide

theorem exec_drainedEvents :
    ∃ m, Run.exec (Threads.step plainHash) (.start (initBlockchain Chain.fresh true).2)
      drainedEvents = some m ∧ m.fault = some .frontOfEmpty := by
  rw [← Option.map_eq_some_iff]
  decide

/-- Either can go wrong. -/
theorem exists_not_safe :
    ∃ s₀, initBlockchain Chain.fresh true = (.ret success, s₀) ∧
      (∃ m, Run.exec (Threads.step plainHash) (.start s₀) takenEvents = some m ∧
        m.fault = some .nullQueued) ∧
      ∃ m, Run.exec (Threads.step plainHash) (.start s₀) drainedEvents = some m ∧
        m.fault = some .frontOfEmpty :=
  ⟨_, rfl, exec_takenEvents, exec_drainedEvents⟩

theorem exec_safe_sample :
    ∃ s₀, ¬Run.Meets (Threads.step plainHash) Undisturbed (.start s₀) takenEvents ∧
      ¬Run.Meets (Threads.step plainHash) Undisturbed (.start s₀) drainedEvents := by
  obtain ⟨m, hm, hf⟩ := exec_takenEvents
  obtain ⟨u, hu, hg⟩ := exec_drainedEvents
  refine ⟨(initBlockchain Chain.fresh true).2, fun hmeets ↦ ?_, fun hmeets ↦ ?_⟩
  · have hnone := (exec_safe rfl).1 _ m hm hmeets
    rw [hf] at hnone
    cases hnone
  · have hnone := (exec_safe rfl).1 _ u hu hmeets
    rw [hg] at hnone
    cases hnone

end Blockchain
