import Mathlib.Data.List.Sort
import Mathlib.Data.Int.Order.Basic
import Mathlib.Logic.Function.Basic

/-!
# The block chain

The state and the functions of `ex3/blockchain.cpp` and `ex3/Block.cpp`.

A `Block*` is an address in `Chain.heap`, and `nullptr` is `none`; the address of a deleted block is
not used again.  What the environment chooses is an argument: the block `random_shuffle` puts first
(`pick`), the random nonce (`seed`), and what the slot of `vecIndex` past its end holds (`pastEnd`),
which `prune_chain` reads.

Where another thread can come in between two parts of a function, the parts are definitions of their
own, and the function is made of them.

A call ends with an `Exit` and leaves a state behind, also when it ends with an exception.
-/

set_option autoImplicit false

namespace Blockchain

/-! ## Blocks -/

/-- A `Block*` that is not null. -/
abbrev BlockPtr := ℕ

/-- A `Block`. -/
structure Block where
  /-- A copy of the data, if there are any. -/
  data : Option (List UInt8)
  /-- The block's number. -/
  index : ℤ
  /-- The number of the father. -/
  fatherIndex : ℤ
  /-- The distance to the genesis block. -/
  depth : ℤ
  /-- The length of the data. -/
  lenData : ℤ
  /-- The hash, once there is one. -/
  hashedData : Option (List UInt8)
  /-- The father, once the block is attached. -/
  next : Option BlockPtr
  /-- The mark of `prune_chain`. -/
  isInLongest : Bool
  /-- The mark of `to_longest`. -/
  attachToLongest : Bool
  deriving DecidableEq, Repr

/-- The constructor. -/
def Block.new (data : Option (List UInt8)) (index fatherIndex depth length : ℤ) : Block where
  data := data.map fun d ↦ d.take length.toNat
  index := index
  fatherIndex := fatherIndex
  depth := depth
  lenData := length
  hashedData := none
  next := none
  isInLongest := false
  attachToLongest := false

/-- The hash library.  A nonce may depend on a random source. -/
structure HashLib where
  /-- `generate_nonce(block_num, father_block_num)`. -/
  generateNonce : ℤ → ℤ → ℕ → ℤ
  /-- `generate_hash(data, length, nonce)`. -/
  generateHash : Option (List UInt8) → ℤ → ℤ → List UInt8

/-! ## The globals -/

/-- `SUCCESS`. -/
def success : ℤ := 0

/-- `FAIL`. -/
def fail : ℤ := -1

/-- `UNSUCCESSFUL`. -/
def unsuccessful : ℤ := -2

/-- `NOT_FOUND`. -/
def notFound : ℤ := 0

/-- `FOUND`. -/
def found : ℤ := 1

/-- The global variables, and the blocks they point to. -/
structure Chain where
  /-- The blocks made so far. -/
  heap : BlockPtr → Block
  /-- The next free address. -/
  brk : BlockPtr
  /-- The attached blocks by their numbers. -/
  blockMap : Std.TreeMap ℤ BlockPtr
  /-- The blocks that wait for the daemon. -/
  blockQueue : List BlockPtr
  /-- The numbers in use. -/
  vecIndex : List ℤ
  /-- Is the chain open? -/
  isInitiated : Bool
  /-- Is the chain being closed? -/
  currentlyBlocked : Bool
  /-- The number of the block the daemon took last. -/
  isInDaemon : ℤ
  /-- `g_sizeCounter`. -/
  sizeCounter : ℤ
  /-- Is `s_mutex` held? -/
  sMutex : Bool

/-- How a call ends. -/
inductive Exit
  /-- It returns a value. -/
  | ret (v : ℤ)
  /-- It waits in a loop until the block is attached. -/
  | waits (blockNum : ℤ)
  /-- It waits for `s_mutex`. -/
  | locked
  /-- `at` throws `out_of_range`. -/
  | outOfRange
  /-- `new char[length]` throws on a negative length. -/
  | badLength
  /-- A loop does not come to an end. -/
  | diverges
  deriving DecidableEq, Repr

/-- The program before `init_blockchain`. -/
def Chain.fresh : Chain where
  heap := fun _ ↦ Block.new none 0 (-1) 0 0
  brk := 0
  blockMap := ∅
  blockQueue := []
  vecIndex := []
  isInitiated := false
  currentlyBlocked := false
  isInDaemon := -1
  sizeCounter := 0
  sMutex := false

/-- Change a block in place. -/
def Chain.modify (s : Chain) (p : BlockPtr) (f : Block → Block) : Chain :=
  { s with heap := Function.update s.heap p (f (s.heap p)) }

/-! ## Looking for blocks and numbers -/

/-- The position of a block in the queue, or `-1`. -/
def existBlock (s : Chain) (blockIdx : ℤ) : ℤ :=
  match s.blockQueue.findIdx? fun p ↦ (s.heap p).index = blockIdx with
  | some i => i
  | none => fail

/-- The depth of the deepest attached block. -/
def maxLength (s : Chain) : ℤ :=
  (s.blockMap.toList.map fun kp ↦ (s.heap kp.2).depth).max?.getD 0

/-- The numbers of the deepest attached blocks. -/
def longestIndexes (s : Chain) : List ℤ :=
  (s.blockMap.toList.filter fun kp ↦ (s.heap kp.2).depth = maxLength s).map
    fun kp ↦ (s.heap kp.2).index

/-- The number of a deepest attached block, or `-1` if there is none. -/
def findFather (s : Chain) (pick : ℕ) : ℤ :=
  if s.blockMap.isEmpty then fail
  else (longestIndexes s).getD (pick % (longestIndexes s).length) fail

/-- The loop of `findMinIdx`, over the numbers that are left. -/
def findMinIdxFrom (idToReturn : ℤ) : List ℤ → ℤ
  | [] => idToReturn
  | v :: vs => if idToReturn ≠ v then idToReturn else findMinIdxFrom (idToReturn + 1) vs

/-- The first number that is not in use.  The numbers are sorted on the way. -/
def findMinIdx (s : Chain) : ℤ × Chain :=
  let s := { s with vecIndex := s.vecIndex.insertionSort (· ≤ ·) }
  (findMinIdxFrom 0 s.vecIndex, s)

/-- Take a block out of the queue. -/
def popBlock (s : Chain) (blockIdx : ℤ) : Option BlockPtr × Chain :=
  match s.blockQueue.find? fun p ↦ (s.heap p).index = blockIdx with
  | some p => (some p, { s with
      blockQueue := s.blockQueue.eraseP (fun q ↦ (s.heap q).index = blockIdx) })
  | none => (none, s)

/-! ## Attaching -/

/-- The second half of `addAndHash` up to `pthread_mutex_lock(&mapMutex)`: the block is hashed for
its father and, if the father is there, linked to it.  The answer tells which.  A block whose father
is not there any more is deleted. -/
def linkBlock (H : HashLib) (s : Chain) (block : BlockPtr) (fatherIndex : ℤ) (seed : ℕ) :
    Bool × Chain :=
  let s := s.modify block fun b ↦ { b with
    hashedData := some (H.generateHash b.data b.lenData
      (H.generateNonce b.index fatherIndex seed))
    fatherIndex := fatherIndex }
  match s.blockMap[fatherIndex]? with
  | none => (false, s)
  | some father => (true, s.modify block fun b ↦ { b with next := some father })

/-- `addAndHash` up to `pthread_mutex_lock(&mapMutex)`: the father is looked for again if the block
is to be attached to the longest chain. -/
def prepareBlock (H : HashLib) (s : Chain) (block : BlockPtr) (pick seed : ℕ) :
    Exit × Bool × Chain :=
  let s := { s with isInDaemon := (s.heap block).index }
  if (s.heap block).attachToLongest then
    let fatherIndex := findFather s pick
    if fatherIndex = -1 then (.ret fail, false, s)
    else
      match s.blockMap[fatherIndex]? with
      | none => (.outOfRange, false, s)
      | some father =>
        let s := s.modify block fun b ↦ { b with depth := (s.heap father).depth + 1 }
        (.ret success, linkBlock H s block fatherIndex seed)
  else (.ret success, linkBlock H s block (s.heap block).fatherIndex seed)

/-- The part of `addAndHash` under `mapMutex`. -/
def insertBlock (s : Chain) (block : BlockPtr) : Chain :=
  { s with blockMap := s.blockMap.insertIfNew (s.heap block).index block }

/-- `addAndHash`: hash a block and attach it to its father. -/
def addAndHash (H : HashLib) (s : Chain) (block : BlockPtr) (pick seed : ℕ) : Exit × Chain :=
  let (x, linked, s) := prepareBlock H s block pick seed
  (x, if linked then insertBlock s block else s)

/-- The first part of an iteration of the daemon's loop: the front block is popped, and `addAndHash`
notes its number before it does anything else. -/
def daemonTake (s : Chain) : Option BlockPtr × Chain :=
  match s.blockQueue.head? with
  | none => (none, s)
  | some bToHash =>
    match popBlock s (s.heap bToHash).index with
    | (none, s) => (none, s)
    | (some block, s) => (some block, { s with isInDaemon := (s.heap block).index })

/-- The rest of the iteration, for the block that was popped.  The number, which `addAndHash` notes,
is noted already. -/
def daemonInsert (H : HashLib) (s : Chain) (block : BlockPtr) (pick seed : ℕ) : Exit × Chain :=
  let (x, s) := addAndHash H s block pick seed
  (x, { s with sizeCounter := s.sizeCounter + 1 })

/-- One iteration of the daemon's loop. -/
def daemonFunction (H : HashLib) (s : Chain) (pick seed : ℕ) : Exit × Chain :=
  match s.blockQueue.head? with
  | none => (.ret success, s)
  | some bToHash =>
    match popBlock s (s.heap bToHash).index with
    | (none, s) => (.outOfRange, s)
    | (some block, s) => daemonInsert H s block pick seed

/-! ## The closing thread -/

/-- One round of the loop of `closeChainThread`. -/
def drainBlock (H : HashLib) (s : Chain) (pick seed : ℕ) : Exit × Chain :=
  match s.blockQueue.head? with
  | none => (.ret success, s)
  | some bToHash =>
    match popBlock s (s.heap bToHash).index with
    | (none, s) => (.outOfRange, s)
    | (some block, s) => addAndHash H s block pick seed

/-- The end of `closeChainThread`, after its loop. -/
def resetChain (s : Chain) : Chain :=
  { s with
    blockMap := ∅
    vecIndex := []
    sizeCounter := 0
    currentlyBlocked := false
    isInitiated := false
    sMutex := false }

/-! ## The library functions -/

/-- `init_blockchain`; `created` tells whether the daemon's thread could be created. -/
def initBlockchain (s : Chain) (created : Bool) : Exit × Chain :=
  if s.currentlyBlocked || s.isInitiated then (.ret fail, s)
  else if s.sMutex then (.locked, s)
  else
    let s := { s with sMutex := true }
    if !created then (.ret fail, s)
    else
      let gensis := s.brk
      (.ret success, { s with
        heap := Function.update s.heap gensis (Block.new none 0 (-1) 0 0)
        brk := gensis + 1
        blockMap := s.blockMap.insertIfNew 0 gensis
        vecIndex := s.vecIndex ++ [0]
        isInitiated := true })

/-- The last part of `add_block`: the block is made, its number is listed, and it is queued. -/
def createBlock (s : Chain) (data : Option (List UInt8)) (length idx fatherIdx : ℤ) :
    Exit × Chain :=
  match s.blockMap[fatherIdx]? with
  | none => (.outOfRange, s)
  | some father =>
    if data.isSome ∧ length < 0 then (.badLength, s)
    else
      let newBlock := s.brk
      (.ret idx, { s with
        heap := Function.update s.heap newBlock
          (Block.new data idx fatherIdx ((s.heap father).depth + 1) length)
        brk := newBlock + 1
        vecIndex := s.vecIndex ++ [idx]
        blockQueue := s.blockQueue ++ [newBlock] })

/-- `add_block`. -/
def addBlock (s : Chain) (data : Option (List UInt8)) (length : ℤ) (pick : ℕ) : Exit × Chain :=
  if !s.isInitiated || s.currentlyBlocked then (.ret fail, s)
  else
    let (idx, s) := findMinIdx s
    let fatherIdx := findFather s pick
    createBlock s data length idx fatherIdx

/-- `to_longest`. -/
def toLongest (s : Chain) (blockNum : ℤ) : Exit × Chain :=
  if !s.isInitiated then (.ret fail, s)
  else if blockNum ∈ s.blockMap then (.ret found, s)
  else
    let idx := existBlock s blockNum
    if idx = fail then (.ret unsuccessful, s)
    else
      match s.blockQueue[idx.toNat]? with
      | none => (.outOfRange, s)
      | some p => (.ret success, s.modify p fun b ↦ { b with attachToLongest := true })

/-- `attach_now`. -/
def attachNow (s : Chain) (blockNum : ℤ) : Exit × Chain :=
  if !s.isInitiated || s.currentlyBlocked then (.ret fail, s)
  else if blockNum ∈ s.blockMap then (.ret success, s)
  else if s.isInDaemon = blockNum then (.waits blockNum, s)
  else if existBlock s blockNum = fail then (.ret unsuccessful, s)
  else
    match popBlock s blockNum with
    | (none, s) => (.outOfRange, s)
    | (some p, s) => (.waits blockNum, { s with blockQueue := p :: s.blockQueue })

/-- `was_added`. -/
def wasAdded (s : Chain) (blockNum : ℤ) : ℤ :=
  if !s.isInitiated then fail
  else if blockNum ∈ s.blockMap then found
  else if existBlock s blockNum ≠ fail ∨ blockNum = s.isInDaemon then notFound
  else unsuccessful

/-- `chain_size`. -/
def chainSize (s : Chain) : ℤ := if !s.isInitiated then fail else s.sizeCounter

/-- `close_chain`.  If the chain is open, the closing thread is started, too. -/
def closeChain (s : Chain) : Chain :=
  if s.isInitiated then { s with currentlyBlocked := true } else s

/-! ## Pruning -/

/-- The first loop of `prune_chain`: mark the blocks from the given one up to the genesis block,
which is left out.  The path has at most as many blocks as there are attached ones, so the loop gets
that many rounds. -/
def markLongest : ℕ → Chain → ℤ → Exit × Chain
  | 0, s, _ => (.diverges, s)
  | n + 1, s, longestIdx =>
    match s.blockMap[longestIdx]? with
    | none => (.outOfRange, s)
    | some p =>
      match (s.heap p).next with
      | none => (.ret success, s)
      | some q =>
        let s := s.modify p fun b ↦ { b with isInLongest := true }
        markLongest n s (s.heap q).index

/-- The second loop of `prune_chain`, from an iterator on: drop the numbers of the blocks that are
not marked.  The loop ends at an element equal to what the slot past the end holds; after an
`erase`, this is what was the last element before.  The answer is `false` when `at` throws. -/
def sweepIndex (isInLongest : ℤ → Option Bool) (pastEnd : ℤ) : List ℤ → Bool × List ℤ
  | [] => (true, [])
  | v :: rest =>
    if v = pastEnd then (true, v :: rest)
    else
      match isInLongest v with
      | none => (false, v :: rest)
      | some false => sweepIndex isInLongest ((v :: rest).getLast (by simp)) rest
      | some true =>
        let (done, l) := sweepIndex isInLongest pastEnd rest
        (done, v :: l)

/-- The mark of the block with the given number, which `blockMap.at` looks up. -/
def isInLongestAt (s : Chain) (v : ℤ) : Option Bool :=
  s.blockMap[v]?.map fun p ↦ (s.heap p).isInLongest

/-- The third loop of `prune_chain`, over the entries that are left.  What lies past the end of a
map is no block, so the loop's test holds up to the end. -/
def sweepMap (heap : BlockPtr → Block) :
    List (ℤ × BlockPtr) → Std.TreeMap ℤ BlockPtr → Std.TreeMap ℤ BlockPtr
  | [], m => m
  | (k, p) :: rest, m => sweepMap heap rest (if (heap p).isInLongest then m else m.erase k)

/-- The fourth loop of `prune_chain`: take the marks off. -/
def unmark (s : Chain) : List (ℤ × BlockPtr) → Chain
  | [] => s
  | (_, p) :: rest => unmark (s.modify p fun b ↦ { b with isInLongest := false }) rest

/-- `prune_chain` from its check up to `pthread_mutex_lock(&mapMutex)`. -/
def markChain (s : Chain) (pick : ℕ) (pastEnd : ℤ) : Exit × Chain :=
  match markLongest s.blockMap.size s (findFather s pick) with
  | (.ret _, s) =>
    match s.blockMap[(0 : ℤ)]? with
    | none => (.outOfRange, s)
    | some gensis =>
      let s := s.modify gensis fun b ↦ { b with isInLongest := true }
      match sweepIndex (isInLongestAt s) pastEnd s.vecIndex with
      | (false, l) => (.outOfRange, { s with vecIndex := l })
      | (true, l) => (.ret success, { s with vecIndex := l })
  | (x, s) => (x, s)

/-- The part of `prune_chain` under `mapMutex`. -/
def sweepChain (s : Chain) : Chain :=
  { s with blockMap := sweepMap s.heap s.blockMap.toList s.blockMap }

/-- The rest of `prune_chain`. -/
def unmarkChain (s : Chain) : Chain := unmark s s.blockMap.toList

/-- `prune_chain`. -/
def pruneChain (s : Chain) (pick : ℕ) (pastEnd : ℤ) : Exit × Chain :=
  if !s.isInitiated || s.currentlyBlocked then (.ret fail, s)
  else
    match markChain s pick pastEnd with
    | (.ret _, s) => (.ret success, unmarkChain (sweepChain s))
    | (x, s) => (x, s)

/-! ## Runs -/

/-- An event of a run, with what the environment chooses. -/
inductive Event
  | addBlock (data : Option (List UInt8)) (length : ℤ) (pick : ℕ)
  | toLongest (blockNum : ℤ)
  | attachNow (blockNum : ℤ)
  | pruneChain (pick : ℕ) (pastEnd : ℤ)
  | daemon (pick seed : ℕ)
  deriving DecidableEq, Repr

/-- What happens at an event. -/
def perform (H : HashLib) (s : Chain) : Event → Exit × Chain
  | .addBlock data length pick => addBlock s data length pick
  | .toLongest blockNum => toLongest s blockNum
  | .attachNow blockNum => attachNow s blockNum
  | .pruneChain pick pastEnd => pruneChain s pick pastEnd
  | .daemon pick seed => daemonFunction H s pick seed

/-- The state after an event. -/
def step (H : HashLib) (s : Chain) (e : Event) : Option Chain :=
  match perform H s e with
  | (.diverges, _) => none
  | (_, t) => some t

end Blockchain
