import OsExercises.Blockchain.Linked
import OsExercises.ForMathlib.Mealy

/-!
# Addresses do not matter

A `Block*` is only ever followed, and never compared or printed.  So two states that differ in where
the blocks lie answer all calls in the same way.  `Shifted n s t` says that `t` is `s` with every
address moved up by `n`, as when `n` blocks were made before; every function of the library keeps
this and returns the same in both states, and `Shifted.alike` puts it together.
-/

set_option autoImplicit false

namespace Blockchain

variable {s t : Chain} {p q : BlockPtr} {n : ℕ} {k : ℤ} {H : HashLib} {pick seed : ℕ} {pastEnd : ℤ}

/-! ## Moved blocks -/

/-- A block whose pointer to the father is moved. -/
def Block.shift (n : ℕ) (b : Block) : Block := { b with next := b.next.map (· + n) }

theorem Block.shift_of_none {b : Block} (hb : b.next = none) : b.shift n = b := by
  rw [Block.shift, hb, Option.map_none, ← hb]

/-- The state `t` is the state `s` with every address moved up by `n`. -/
structure Shifted (n : ℕ) (s t : Chain) : Prop where
  /-- The blocks. -/
  heap : ∀ p, t.heap (p + n) = (s.heap p).shift n
  /-- The next free address. -/
  brk : t.brk = s.brk + n
  /-- The attached blocks. -/
  map : ∀ k : ℤ, t.blockMap[k]? = s.blockMap[k]?.map (· + n)
  /-- The pending blocks. -/
  queue : t.blockQueue = s.blockQueue.map (· + n)
  /-- The numbers. -/
  numbers : t.vecIndex = s.vecIndex
  /-- Whether the chain is open. -/
  initiated : t.isInitiated = s.isInitiated
  /-- Whether it is being closed. -/
  blocked : t.currentlyBlocked = s.currentlyBlocked
  /-- The number that the daemon has noted. -/
  noted : t.isInDaemon = s.isInDaemon
  /-- The counter. -/
  counter : t.sizeCounter = s.sizeCounter
  /-- Whether `s_mutex` is held. -/
  mutex : t.sMutex = s.sMutex

/-- Two calls end in the same way, and the states they leave behind differ in the addresses alone.
-/
def Agree (n : ℕ) (a b : Exit × Chain) : Prop := a.1 = b.1 ∧ Shifted n a.2 b.2

namespace Shifted

theorem index (h : Shifted n s t) (p : BlockPtr) : (t.heap (p + n)).index = (s.heap p).index := by
  rw [h.heap]
  rfl

theorem depth (h : Shifted n s t) (p : BlockPtr) : (t.heap (p + n)).depth = (s.heap p).depth := by
  rw [h.heap]
  rfl

/-! ## The map -/

theorem equiv (h : Shifted n s t) : t.blockMap.Equiv (s.blockMap.map fun _ p ↦ p + n) :=
  .of_forall_constGet?_eq fun k ↦ by rw [h.map, Std.TreeMap.getElem?_map]

theorem toList (h : Shifted n s t) :
    t.blockMap.toList = s.blockMap.toList.map fun kp ↦ (kp.1, kp.2 + n) := by
  rw [h.equiv.toList_eq, Std.TreeMap.toList_map]

theorem isEmpty (h : Shifted n s t) : t.blockMap.isEmpty = s.blockMap.isEmpty := by
  rw [h.equiv.isEmpty_eq, Std.TreeMap.isEmpty_map]

theorem size (h : Shifted n s t) : t.blockMap.size = s.blockMap.size := by
  rw [h.equiv.size_eq, Std.TreeMap.size_map]

theorem mem (h : Shifted n s t) : k ∈ t.blockMap ↔ k ∈ s.blockMap := by
  rw [h.equiv.mem_iff, Std.TreeMap.mem_map]

/-! ## Looking -/

theorem existBlock (h : Shifted n s t) : existBlock t k = existBlock s k := by
  have hfind : (t.blockQueue.findIdx? fun p ↦ (t.heap p).index = k) =
      s.blockQueue.findIdx? fun p ↦ (s.heap p).index = k := by
    rw [h.queue, List.findIdx?_map]
    congr 1
    funext p
    simp only [Function.comp, h.index]
  rw [Blockchain.existBlock, Blockchain.existBlock, hfind]

theorem maxLength (h : Shifted n s t) : maxLength t = maxLength s := by
  have hmap : (t.blockMap.toList.map fun kp ↦ (t.heap kp.2).depth) =
      s.blockMap.toList.map fun kp ↦ (s.heap kp.2).depth := by
    rw [h.toList, List.map_map]
    exact List.map_congr_left fun kp _ ↦ h.depth kp.2
  rw [Blockchain.maxLength, Blockchain.maxLength, hmap]

theorem longestIndexes (h : Shifted n s t) : longestIndexes t = longestIndexes s := by
  rw [Blockchain.longestIndexes, Blockchain.longestIndexes, h.maxLength, h.toList, List.filter_map,
    List.map_map]
  have hfilter : (fun kp : ℤ × BlockPtr ↦ decide ((t.heap kp.2).depth = Blockchain.maxLength s)) ∘
      (fun kp : ℤ × BlockPtr ↦ (kp.1, kp.2 + n)) =
      fun kp : ℤ × BlockPtr ↦ decide ((s.heap kp.2).depth = Blockchain.maxLength s) := by
    funext kp
    simp only [Function.comp, h.depth]
  rw [hfilter]
  exact List.map_congr_left fun kp _ ↦ h.index kp.2

theorem findFather (h : Shifted n s t) : findFather t pick = findFather s pick := by
  rw [Blockchain.findFather, Blockchain.findFather, h.isEmpty, h.longestIndexes]

/-! ## Changing -/

/-- Corresponding changes of a block. -/
theorem modify {f g : Block → Block} (h : Shifted n s t)
    (hfg : g ((s.heap p).shift n) = (f (s.heap p)).shift n) :
    Shifted n (s.modify p f) (t.modify (p + n) g) := by
  refine ⟨fun q ↦ ?_, h.brk, h.map, h.queue, h.numbers, h.initiated, h.blocked, h.noted, h.counter,
    h.mutex⟩
  by_cases hq : q = p
  · subst hq
    simp [Chain.modify, h.heap, hfg]
  · simp [Chain.modify, hq, h.heap]

/-- A new block. -/
theorem alloc {b : Block} (h : Shifted n s t) (hb : b.next = none) :
    Shifted n { s with heap := Function.update s.heap s.brk b, brk := s.brk + 1 }
      { t with heap := Function.update t.heap t.brk b, brk := t.brk + 1 } := by
  refine ⟨fun q ↦ ?_, ?_, h.map, h.queue, h.numbers, h.initiated, h.blocked, h.noted, h.counter,
    h.mutex⟩
  · simp only [h.brk]
    by_cases hq : q = s.brk
    · subst hq
      simp [Block.shift_of_none hb]
    · simp [hq, h.heap]
  · simp only [h.brk]
    exact Nat.add_right_comm s.brk n 1

/-- A block gets into the map, unless its number is there. -/
theorem insertIfNew (h : Shifted n s t) (k : ℤ) (p : BlockPtr) :
    Shifted n { s with blockMap := s.blockMap.insertIfNew k p }
      { t with blockMap := t.blockMap.insertIfNew k (p + n) } := by
  refine ⟨h.heap, h.brk, fun j ↦ ?_, h.queue, h.numbers, h.initiated, h.blocked, h.noted, h.counter,
    h.mutex⟩
  simp only [Std.TreeMap.getElem?_insertIfNew, h.mem, h.map]
  split <;> rfl

theorem popBlock (h : Shifted n s t) :
    (popBlock t k).1 = (popBlock s k).1.map (· + n) ∧
      Shifted n (popBlock s k).2 (popBlock t k).2 := by
  have hpred : (fun p ↦ decide ((t.heap p).index = k)) ∘ (· + n) =
      fun p ↦ decide ((s.heap p).index = k) := by
    funext p
    simp only [Function.comp, h.index]
  have hfind : t.blockQueue.find? (fun p ↦ (t.heap p).index = k) =
      (s.blockQueue.find? fun p ↦ (s.heap p).index = k).map (· + n) := by
    rw [h.queue, List.find?_map, hpred]
  have herase : t.blockQueue.eraseP (fun p ↦ (t.heap p).index = k) =
      (s.blockQueue.eraseP fun p ↦ (s.heap p).index = k).map (· + n) := by
    rw [h.queue, List.eraseP_map, hpred]
  rw [Blockchain.popBlock, Blockchain.popBlock, hfind]
  cases s.blockQueue.find? fun p ↦ (s.heap p).index = k with
  | none => exact ⟨rfl, h⟩
  | some p =>
    exact ⟨rfl, h.heap, h.brk, h.map, herase, h.numbers, h.initiated, h.blocked, h.noted, h.counter,
      h.mutex⟩

/-! ## Attaching -/

theorem linkBlock (h : Shifted n s t) (p : BlockPtr) (f : ℤ) :
    (linkBlock H s p f seed).1 = (linkBlock H t (p + n) f seed).1 ∧
      Shifted n (linkBlock H s p f seed).2 (linkBlock H t (p + n) f seed).2 := by
  rw [Blockchain.linkBlock, Blockchain.linkBlock]
  have hhash := h.modify (p := p) (f := fun b ↦ { b with
      hashedData := some (H.generateHash b.data b.lenData (H.generateNonce b.index f seed))
      fatherIndex := f }) (g := fun b ↦ { b with
      hashedData := some (H.generateHash b.data b.lenData (H.generateNonce b.index f seed))
      fatherIndex := f }) rfl
  generalize s.modify p _ = s' at hhash ⊢
  generalize t.modify (p + n) _ = t' at hhash ⊢
  simp only [hhash.map]
  cases s'.blockMap[f]? with
  | none => exact ⟨rfl, hhash⟩
  | some q =>
    exact ⟨rfl, hhash.modify (p := p) (f := fun b ↦ { b with next := some q })
      (g := fun b ↦ { b with next := some (q + n) }) rfl⟩

theorem prepareBlock (h : Shifted n s t) (p : BlockPtr) :
    (prepareBlock H s p pick seed).1 = (prepareBlock H t (p + n) pick seed).1 ∧
      (prepareBlock H s p pick seed).2.1 = (prepareBlock H t (p + n) pick seed).2.1 ∧
      Shifted n (prepareBlock H s p pick seed).2.2
        (prepareBlock H t (p + n) pick seed).2.2 := by
  have hnote : Shifted n { s with isInDaemon := (s.heap p).index }
      { t with isInDaemon := (t.heap (p + n)).index } :=
    ⟨h.heap, h.brk, h.map, h.queue, h.numbers, h.initiated, h.blocked, h.index p, h.counter,
      h.mutex⟩
  have hflag : (t.heap (p + n)).attachToLongest = (s.heap p).attachToLongest := by
    rw [h.heap]
    rfl
  have hfather : (t.heap (p + n)).fatherIndex = (s.heap p).fatherIndex := by
    rw [h.heap]
    rfl
  rw [Blockchain.prepareBlock, Blockchain.prepareBlock]
  simp only [hnote.findFather, hflag, hfather]
  split
  · split
    · exact ⟨rfl, rfl, hnote⟩
    · simp only [h.map]
      cases s.blockMap[Blockchain.findFather { s with isInDaemon := (s.heap p).index } pick]? with
      | none => exact ⟨rfl, rfl, hnote⟩
      | some q =>
        refine ⟨rfl, linkBlock (hnote.modify ?_) p _⟩
        simp only [h.depth]
        rfl
  · exact ⟨rfl, hnote.linkBlock p _⟩

theorem addAndHash (h : Shifted n s t) (p : BlockPtr) :
    Agree n (addAndHash H s p pick seed) (addAndHash H t (p + n) pick seed) := by
  have hprepare : (Blockchain.prepareBlock H s p pick seed).1 = _ ∧ _ := h.prepareBlock p
  rw [Blockchain.addAndHash, Blockchain.addAndHash]
  generalize Blockchain.prepareBlock H s p pick seed = a at hprepare ⊢
  generalize Blockchain.prepareBlock H t (p + n) pick seed = b at hprepare ⊢
  obtain ⟨x, linked, s'⟩ := a
  obtain ⟨x', linked', t'⟩ := b
  obtain ⟨rfl, rfl, hs⟩ := hprepare
  refine ⟨rfl, ?_⟩
  dsimp only
  split
  · rw [insertBlock, insertBlock, hs.index]
    exact hs.insertIfNew _ p
  · exact hs

theorem daemonFunction (h : Shifted n s t) :
    Agree n (daemonFunction H s pick seed) (daemonFunction H t pick seed) := by
  rw [Blockchain.daemonFunction, Blockchain.daemonFunction, h.queue, List.head?_map]
  cases s.blockQueue.head? with
  | none => exact ⟨rfl, h⟩
  | some p =>
    simp only [Option.map_some, h.index]
    obtain ⟨hfst, hsnd⟩ := h.popBlock (k := (s.heap p).index)
    revert hfst hsnd
    rcases Blockchain.popBlock s (s.heap p).index with ⟨_ | r, s'⟩
    · rcases Blockchain.popBlock t (s.heap p).index with ⟨_ | r', t'⟩
      · exact fun _ hsnd ↦ ⟨rfl, hsnd⟩
      · exact fun hfst ↦ by cases hfst
    · rcases Blockchain.popBlock t (s.heap p).index with ⟨_ | r', t'⟩
      · exact fun hfst ↦ by cases hfst
      · intro hfst hsnd
        cases hfst
        have hagree : Agree n (Blockchain.addAndHash H s' r pick seed)
            (Blockchain.addAndHash H t' (r + n) pick seed) := hsnd.addAndHash r
        obtain ⟨hx, hs⟩ := hagree
        exact ⟨hx, hs.heap, hs.brk, hs.map, hs.queue, hs.numbers, hs.initiated, hs.blocked,
          hs.noted, congrArg (· + 1) hs.counter, hs.mutex⟩

/-! ## Calls -/

theorem initBlockchain (h : Shifted n s t) (created : Bool) :
    Agree n (initBlockchain s created) (initBlockchain t created) := by
  rw [Blockchain.initBlockchain, Blockchain.initBlockchain, h.initiated, h.blocked, h.mutex]
  split
  · exact ⟨rfl, h⟩
  split
  · exact ⟨rfl, h⟩
  dsimp only
  split
  · exact ⟨rfl, h.heap, h.brk, h.map, h.queue, h.numbers, rfl, rfl, h.noted, h.counter, rfl⟩
  · have hnew := (h.alloc (b := Block.new none 0 (-1) 0 0) rfl).insertIfNew 0 s.brk
    refine ⟨rfl, hnew.heap, hnew.brk, ?_, h.queue, congrArg (· ++ [0]) h.numbers, rfl, rfl, h.noted,
      h.counter, rfl⟩
    simp only [h.brk]
    exact hnew.map

theorem addBlock (h : Shifted n s t) (data : Option (List UInt8)) (length : ℤ) :
    Agree n (addBlock s data length pick) (addBlock t data length pick) := by
  have hsorted : Shifted n (findMinIdx s).2 (findMinIdx t).2 :=
    ⟨h.heap, h.brk, h.map, h.queue, congrArg (List.insertionSort (· ≤ ·)) h.numbers, h.initiated,
      h.blocked, h.noted, h.counter, h.mutex⟩
  have hidx : (findMinIdx t).1 = (findMinIdx s).1 := by
    rw [findMinIdx, findMinIdx, h.numbers]
  rw [Blockchain.addBlock, Blockchain.addBlock, h.initiated, h.blocked]
  split
  · exact ⟨rfl, h⟩
  generalize findMinIdx s = a at hsorted hidx ⊢
  generalize findMinIdx t = b at hsorted hidx ⊢
  obtain ⟨idx, s'⟩ := a
  obtain ⟨idx', t'⟩ := b
  obtain rfl : idx' = idx := hidx
  replace hsorted : Shifted n s' t' := hsorted
  simp only [createBlock, hsorted.findFather, hsorted.map]
  cases s'.blockMap[Blockchain.findFather s' pick]? with
  | none => exact ⟨rfl, hsorted⟩
  | some father =>
    simp only [Option.map_some, hsorted.depth]
    split
    · exact ⟨rfl, hsorted⟩
    · have hnew := hsorted.alloc (b := Block.new data idx' (Blockchain.findFather s' pick)
        ((s'.heap father).depth + 1) length) rfl
      refine ⟨rfl, hnew.heap, hnew.brk, hnew.map, ?_, congrArg (· ++ [idx']) hnew.numbers,
        hnew.initiated, hnew.blocked, hnew.noted, hnew.counter, hnew.mutex⟩
      simp only [hsorted.queue, hsorted.brk, List.map_append, List.map_singleton]

theorem toLongest (h : Shifted n s t) : Agree n (toLongest s k) (toLongest t k) := by
  rw [Blockchain.toLongest, Blockchain.toLongest, h.initiated, if_congr h.mem rfl rfl, h.existBlock]
  split
  · exact ⟨rfl, h⟩
  split
  · exact ⟨rfl, h⟩
  dsimp only
  split
  · exact ⟨rfl, h⟩
  rw [h.queue, List.getElem?_map]
  cases s.blockQueue[(Blockchain.existBlock s k).toNat]? with
  | none => exact ⟨rfl, h⟩
  | some p =>
    exact ⟨rfl, h.modify (f := fun b ↦ { b with attachToLongest := true })
      (g := fun b ↦ { b with attachToLongest := true }) rfl⟩

theorem attachNow (h : Shifted n s t) : Agree n (attachNow s k) (attachNow t k) := by
  rw [Blockchain.attachNow, Blockchain.attachNow, h.initiated, h.blocked, h.noted, h.existBlock,
    if_congr h.mem rfl rfl]
  split
  · exact ⟨rfl, h⟩
  split
  · exact ⟨rfl, h⟩
  split
  · exact ⟨rfl, h⟩
  split
  · exact ⟨rfl, h⟩
  obtain ⟨hfst, hsnd⟩ := h.popBlock (k := k)
  revert hfst hsnd
  rcases Blockchain.popBlock s k with ⟨_ | p, s'⟩
  · rcases Blockchain.popBlock t k with ⟨_ | p', t'⟩
    · exact fun _ hsnd ↦ ⟨rfl, hsnd⟩
    · exact fun hfst ↦ by cases hfst
  · rcases Blockchain.popBlock t k with ⟨_ | p', t'⟩
    · exact fun hfst ↦ by cases hfst
    · intro hfst hsnd
      cases hfst
      exact ⟨rfl, hsnd.heap, hsnd.brk, hsnd.map, congrArg ((p + n) :: ·) hsnd.queue, hsnd.numbers,
        hsnd.initiated, hsnd.blocked, hsnd.noted, hsnd.counter, hsnd.mutex⟩

/-! ## Pruning -/

theorem markLongest (h : Shifted n s t) (i : ℕ) :
    Agree n (markLongest i s k) (markLongest i t k) := by
  induction i generalizing s t k with
  | zero => exact ⟨rfl, h⟩
  | succ i ih =>
    rw [Blockchain.markLongest, Blockchain.markLongest, h.map]
    cases s.blockMap[k]? with
    | none => exact ⟨rfl, h⟩
    | some p =>
      simp only [Option.map_some, h.heap, Block.shift]
      cases hn : (s.heap p).next with
      | none => exact ⟨rfl, h⟩
      | some q =>
        have hmark := h.modify (p := p) (f := fun b ↦ { b with isInLongest := true })
          (g := fun b ↦ { b with isInLongest := true }) rfl
        simp only [Option.map_some]
        rw [hmark.index]
        exact ih hmark

theorem isInLongestAt (h : Shifted n s t) : isInLongestAt t = isInLongestAt s := by
  funext v
  rw [Blockchain.isInLongestAt, Blockchain.isInLongestAt, h.map, Option.map_map]
  congr 1
  funext p
  simp only [Function.comp, h.heap]
  rfl

theorem sweepMap (h : Shifted n s t) (l : List (ℤ × BlockPtr)) {m m' : Std.TreeMap ℤ BlockPtr}
    (hm : ∀ k : ℤ, m'[k]? = m[k]?.map (· + n)) (k : ℤ) :
    (sweepMap t.heap (l.map fun kp ↦ (kp.1, kp.2 + n)) m')[k]? =
      (sweepMap s.heap l m)[k]?.map (· + n) := by
  induction l generalizing m m' with
  | nil => exact hm k
  | cons kp l ih =>
    obtain ⟨j, p⟩ := kp
    rw [List.map_cons, Blockchain.sweepMap, Blockchain.sweepMap, h.heap]
    refine ih fun i ↦ ?_
    change (if (s.heap p).isInLongest = true then m' else m'.erase j)[i]? = _
    split
    · exact hm i
    · rw [Std.TreeMap.getElem?_erase, Std.TreeMap.getElem?_erase, hm]
      split <;> rfl

theorem unmark (h : Shifted n s t) (l : List (ℤ × BlockPtr)) :
    Shifted n (unmark s l) (unmark t (l.map fun kp ↦ (kp.1, kp.2 + n))) := by
  induction l generalizing s t with
  | nil => exact h
  | cons kp l ih =>
    rw [List.map_cons, Blockchain.unmark, Blockchain.unmark]
    exact ih (h.modify rfl)

theorem markChain (h : Shifted n s t) :
    Agree n (markChain s pick pastEnd) (markChain t pick pastEnd) := by
  rw [Blockchain.markChain, Blockchain.markChain, h.size, h.findFather]
  have hmarked : Agree n _ _ := h.markLongest (k := Blockchain.findFather s pick) s.blockMap.size
  generalize Blockchain.markLongest s.blockMap.size s _ = a at hmarked ⊢
  generalize Blockchain.markLongest s.blockMap.size t _ = b at hmarked ⊢
  obtain ⟨x, s'⟩ := a
  obtain ⟨_, t'⟩ := b
  obtain ⟨hx, hs⟩ := hmarked
  dsimp only at hx hs
  subst hx
  cases x with
  | ret _ =>
    simp only [hs.map]
    cases s'.blockMap[(0 : ℤ)]? with
    | none => exact ⟨rfl, hs⟩
    | some g =>
      have hg := hs.modify (p := g) (f := fun b ↦ { b with isInLongest := true })
        (g := fun b ↦ { b with isInLongest := true }) rfl
      simp only [Option.map_some]
      generalize s'.modify g _ = s₁ at hg ⊢
      generalize t'.modify (g + n) _ = t₁ at hg ⊢
      rw [hg.isInLongestAt, hg.numbers]
      rcases sweepIndex (Blockchain.isInLongestAt s₁) pastEnd s₁.vecIndex with ⟨_ | _, l⟩
      · exact ⟨rfl, hg.heap, hg.brk, hg.map, hg.queue, rfl, hg.initiated, hg.blocked, hg.noted,
          hg.counter, hg.mutex⟩
      · exact ⟨rfl, hg.heap, hg.brk, hg.map, hg.queue, rfl, hg.initiated, hg.blocked, hg.noted,
          hg.counter, hg.mutex⟩
  | waits _ | locked | outOfRange | badLength | diverges => exact ⟨rfl, hs⟩

theorem sweepChain (h : Shifted n s t) : Shifted n (sweepChain s) (sweepChain t) := by
  refine ⟨h.heap, h.brk, ?_, h.queue, h.numbers, h.initiated, h.blocked, h.noted, h.counter,
    h.mutex⟩
  rw [Blockchain.sweepChain, Blockchain.sweepChain, h.toList]
  exact h.sweepMap _ h.map

theorem unmarkChain (h : Shifted n s t) : Shifted n (unmarkChain s) (unmarkChain t) := by
  rw [Blockchain.unmarkChain, Blockchain.unmarkChain, h.toList]
  exact h.unmark s.blockMap.toList

theorem pruneChain (h : Shifted n s t) :
    Agree n (pruneChain s pick pastEnd) (pruneChain t pick pastEnd) := by
  rw [Blockchain.pruneChain, Blockchain.pruneChain, h.initiated, h.blocked]
  split
  · exact ⟨rfl, h⟩
  have hmarked : Agree n (Blockchain.markChain s pick pastEnd) _ := h.markChain
  generalize Blockchain.markChain s pick pastEnd = a at hmarked ⊢
  generalize Blockchain.markChain t pick pastEnd = b at hmarked ⊢
  obtain ⟨x, s'⟩ := a
  obtain ⟨_, t'⟩ := b
  obtain ⟨hx, hs⟩ := hmarked
  dsimp only at hx hs
  subst hx
  cases x with
  | ret _ => exact ⟨rfl, hs.sweepChain.unmarkChain⟩
  | waits _ | locked | outOfRange | badLength | diverges => exact ⟨rfl, hs⟩

end Shifted

/-! ## All calls -/

/-- An iteration of the daemon or a library call, the ones that only ask included. -/
inductive Use
  /-- `init_blockchain`. -/
  | init (created : Bool)
  /-- A call that may change the chain, or an iteration of the daemon. -/
  | event (e : Event)
  /-- `was_added`. -/
  | wasAdded (blockNum : ℤ)
  /-- `chain_size`. -/
  | chainSize
  /-- `close_chain`. -/
  | close
  /-- `return_on_close`. -/
  | returnOnClose
  deriving DecidableEq, Repr

/-- `return_on_close`; there is no answer while it waits for the closing thread. -/
def returnOnClose (s : Chain) : Option Exit :=
  if !s.currentlyBlocked || !s.isInitiated then some (.ret unsuccessful) else none

/-- What a call returns, if it returns something, and the state after it.  The daemon's loop ends
when the chain is being closed. -/
def respond (H : HashLib) (s : Chain) : Use → Option Exit × Chain
  | .init created => ((initBlockchain s created).1, (initBlockchain s created).2)
  | .event e =>
    if !e.isCall && s.currentlyBlocked then (none, s)
    else ((perform H s e).1, (perform H s e).2)
  | .wasAdded blockNum => (some (.ret (wasAdded s blockNum)), s)
  | .chainSize => (some (.ret (chainSize s)), s)
  | .close => (none, closeChain s)
  | .returnOnClose => (returnOnClose s, s)

namespace Shifted

theorem perform (h : Shifted n s t) (e : Event) : Agree n (perform H s e) (perform H t e) :=
  match e with
  | .addBlock data length _ => h.addBlock data length
  | .toLongest _ => h.toLongest
  | .attachNow _ => h.attachNow
  | .pruneChain .. => h.pruneChain
  | .daemon .. => h.daemonFunction

/-- **No call tells where the blocks lie.** -/
theorem respond (h : Shifted n s t) (u : Use) :
    (respond H s u).1 = (respond H t u).1 ∧ Shifted n (respond H s u).2 (respond H t u).2 := by
  match u with
  | .init created =>
    obtain ⟨hx, hs⟩ := h.initBlockchain created
    exact ⟨congrArg some hx, hs⟩
  | .event e =>
    obtain ⟨hx, hs⟩ := h.perform (H := H) e
    rw [Blockchain.respond, Blockchain.respond, h.blocked]
    split
    · exact ⟨rfl, h⟩
    · exact ⟨congrArg some hx, hs⟩
  | .wasAdded blockNum =>
    refine ⟨?_, h⟩
    simp only [Blockchain.respond, wasAdded, h.initiated, h.mem, h.existBlock, h.noted]
  | .chainSize =>
    refine ⟨?_, h⟩
    simp only [Blockchain.respond, chainSize, h.initiated, h.counter]
  | .close =>
    refine ⟨rfl, ?_⟩
    simp only [Blockchain.respond, closeChain, h.initiated]
    split
    · exact ⟨h.heap, h.brk, h.map, h.queue, h.numbers, rfl, rfl, h.noted, h.counter, h.mutex⟩
    · exact h
  | .returnOnClose =>
    refine ⟨?_, h⟩
    simp only [Blockchain.respond, returnOnClose, h.initiated, h.blocked]

/-- **Nor does any sequence of calls.** -/
theorem alike (h : Shifted n s t) : Mealy.Alike (Blockchain.respond H) s t :=
  Mealy.alike_of_rel (fun _ _ u h ↦ h.respond u) h

end Shifted

end Blockchain
