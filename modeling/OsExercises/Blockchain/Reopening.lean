import OsExercises.Blockchain.Pruned
import OsExercises.Blockchain.Shift

/-!
# What is left of a closed chain

`close_chain` starts a thread that hashes and prints the pending blocks, one after the other, and
then resets the globals.  It forgets one of them, `isInDaemon`: from the first block that was ever
taken on, it is the number of a block, and `was_added` and `attach_now` ask for it.

* `Traced` is what has to be known of the runs before: block numbers are positive, and no block lies
  above the next free address.
* `Closing` says what a closing thread has done so far, and `exec_closing` that it always has.
* `close_forgets_iff` puts together when all pending blocks are printed, when the state is that of a
  fresh process, and when nobody can tell that it is not.
-/

set_option autoImplicit false

namespace Blockchain

variable {s t : Chain} {p q g : BlockPtr} {k v : ℤ} {H : HashLib} {pick seed : ℕ} {pastEnd : ℤ}
variable {l : List BlockPtr} {m m' : Lifecycle} {e : LifeEvent} {es : List LifeEvent}

/-! ## The runs before -/

/-- What is left when no block has been made. -/
def Block.blank : Block := Block.new none 0 (-1) 0 0

/-- Number 0 is the genesis block's alone, and no block lies above the next free address. -/
structure Traced (s : Chain) : Prop where
  /-- Number 0 is in use while the chain is open. -/
  zero : s.isInitiated = true → 0 ∈ s.vecIndex
  /-- The number of a pending block is positive. -/
  pending : ∀ p ∈ s.blockQueue, 0 < (s.heap p).index
  /-- The number that is noted is one of a block, if any. -/
  noted : s.isInDaemon = -1 ∨ 0 < s.isInDaemon
  /-- There are no blocks yet above the next free address. -/
  blank : ∀ p, s.brk ≤ p → s.heap p = Block.blank

/-- What does not touch numbers, pending blocks and free addresses does not matter. -/
theorem Traced.of_frame (h : Traced s) (hzero : t.isInitiated = true → 0 ∈ t.vecIndex)
    (hq : ∀ p ∈ t.blockQueue, p ∈ s.blockQueue)
    (hidx : ∀ p ∈ s.blockQueue, (t.heap p).index = (s.heap p).index)
    (hnoted : t.isInDaemon = s.isInDaemon ∨ ∃ p ∈ s.blockQueue, t.isInDaemon = (s.heap p).index)
    (hbrk : t.brk = s.brk) (hblank : ∀ p, s.brk ≤ p → t.heap p = s.heap p) : Traced t := by
  refine ⟨hzero, fun p hp ↦ ?_, ?_, fun p hp ↦ ?_⟩
  · rw [hidx p (hq p hp)]
    exact h.pending p (hq p hp)
  · rcases hnoted with heq | ⟨p, hp, heq⟩
    · rw [heq]
      exact h.noted
    · rw [heq]
      exact .inr (h.pending p hp)
  · rw [hbrk] at hp
    rw [hblank p hp]
    exact h.blank p hp

/-- A new block has a positive number, as 0 is in use. -/
theorem Traced.added {data : Option (List UInt8)} {length f d : ℤ} (h : Traced s)
    (hl : Listed s) (hlinked : Linked s) : Traced (s.added data length f d) := by
  have hzero := h.zero hlinked.initiated
  obtain ⟨⟨hnn, hnew⟩, -⟩ := s.isLeast_minIdx hl.nodup hl.nonneg
  refine ⟨fun _ ↦ mem_vecIndex_added.mpr (.inl hzero), fun p hp ↦ ?_, h.noted, fun p hp ↦ ?_⟩
  · rcases mem_blockQueue_added.mp hp with hp | rfl
    · rw [added_heap_of_lt _ _ _ _ (hlinked.pending p hp).2.1]
      exact h.pending p hp
    · rw [index_added_self]
      exact lt_of_le_of_ne hnn fun heq : 0 = s.minIdx ↦ hnew (heq ▸ hzero)
  · have hlt : s.brk < p := hp
    have hold : (s.added data length f d).heap p = s.heap p := Function.update_of_ne hlt.ne' _ _
    rw [hold]
    exact h.blank p hlt.le

/-- Flagging pending blocks does not matter. -/
theorem Traced.flag (h : Traced s) (hlt : p < s.brk) :
    Traced (s.modify p fun b ↦ { b with attachToLongest := true }) := by
  refine h.of_frame h.zero (fun _ hq ↦ hq) (fun q _ ↦ ?_) (.inl rfl) rfl fun q hq ↦ ?_
  · by_cases hqp : q = p
    · simp [Chain.modify, hqp]
    · simp [Chain.modify, hqp]
  · have hne : q ≠ p := (hlt.trans_le hq).ne'
    simp [Chain.modify, hne]

theorem Traced.perform (h : Traced s) (hl : Listed s) (hlinked : Linked s) {c : Event}
    (hc : c.isCall = true) : Traced (perform H s c).2 := by
  match c with
  | .addBlock data length pick =>
    obtain ⟨p, -, heq⟩ := hlinked.addBlock_cases data length pick
    rw [Blockchain.perform, heq]
    split
    · exact h.of_frame (fun hinit ↦ (List.perm_insertionSort _ _).mem_iff.mpr (h.zero hinit))
        (fun _ hq ↦ hq) (fun _ _ ↦ rfl) (.inl rfl) rfl fun _ _ ↦ rfl
    · exact h.added hl hlinked
  | .toLongest k =>
    rw [Blockchain.perform]
    rcases toLongest_cases s k with heq | ⟨p, hp, heq⟩
    · rwa [heq]
    · rw [heq]
      exact h.flag (hlinked.pending p hp).2.1
  | .attachNow k =>
    obtain ⟨q, hq, heq⟩ := attachNow_cases s k
    rw [Blockchain.perform, heq]
    exact h.of_frame h.zero (fun p hp ↦ hq.mem_iff.mp hp) (fun _ _ ↦ rfl) (.inl rfl) rfl
      fun _ _ ↦ rfl
  | .pruneChain pick pastEnd =>
    obtain ⟨p, l, -, hpath, hall, heq⟩ := hlinked.pruneChain_cases pick pastEnd
    obtain ⟨g, hg, -⟩ := hlinked.genesis
    -- the genesis block is on every way, so its number is not dropped
    have hzero : s.isInitiated = true →
        0 ∈ (sweepIndex (isInLongestAt (s.mark true l)) pastEnd s.vecIndex).2 := fun hinit ↦ by
      refine ((sweepIndex_sublist _ pastEnd _).2 0 (h.zero hinit)).resolve_right fun hm ↦ ?_
      rw [isInLongestAt_of_getElem? (show (s.mark true l).blockMap[(0 : ℤ)]? = some g from hg),
        mark_heap, if_pos (hlinked.genesis_mem hpath hall hg)] at hm
      cases hm
    have hmarked : ∀ q, s.brk ≤ q → (s.mark true l).heap q = s.heap q := fun q hq ↦ by
      rw [mark_heap, if_neg fun hql ↦ (hlinked.lt_brk q (hall q hql)).not_ge hq]
    rw [Blockchain.perform, heq]
    split
    · refine h.of_frame hzero (fun _ hq ↦ hq) (fun q _ ↦ prune_keeps s l _ q) (.inl rfl) rfl
        fun q hq ↦ ?_
      rw [pruned_heap_eq, hmarked q hq, Chain.pruned, mark_heap, hmarked q hq]
      have hout : q ∉ (sweepMap (s.mark true l).heap (s.mark true l).blockMap.toList
          (s.mark true l).blockMap).toList.map Prod.snd := fun hmem ↦ by
        obtain ⟨⟨k, r⟩, hr, rfl⟩ := List.mem_map.mp hmem
        have hget := (getElem?_sweepMap_toList.mp ((mem_toList_iff _).mp hr)).1
        exact (hlinked.lt_brk r (hlinked.attached hget)).not_ge hq
      rw [if_neg hout]
    · exact h.of_frame hzero (fun _ hq ↦ hq) (fun q _ ↦ by rw [mark_heap]) (.inl rfl) rfl hmarked

/-- Taking a block does not matter. -/
theorem Traced.processed {rest : List BlockPtr} {c : ℤ} (h : Traced s) (hlt : p < s.brk)
    (hq : s.blockQueue = p :: rest) :
    Traced { s.processed H p rest pick seed with sizeCounter := c } := by
  have hp : p ∈ s.blockQueue := by simp [hq]
  refine h.of_frame h.zero (fun q hqr ↦ by rw [hq]; exact List.mem_cons_of_mem _ hqr)
    (fun q _ ↦ processed_index H s p rest pick seed q) (.inr ⟨p, hp, rfl⟩) rfl fun q hqb ↦ ?_
  exact Function.update_of_ne (hlt.trans_le hqb).ne' _ _

/-- **The step lemma.** -/
theorem Traced.step (h : Traced m.chain) (hl : Listed m.chain) (hs : m.Sound)
    (hst : m.step H e = some m') : Traced m'.chain := by
  have htook : ∀ {p rest pick seed} {c : ℤ}, m.chain.isInitiated = true →
      m.chain.blockQueue = p :: rest →
        Traced { m.chain.processed H p rest pick seed with sizeCounter := c } :=
    fun {p rest _ _ _} hinit hq ↦ by
      have hp : p ∈ m.chain.blockQueue := hq ▸ List.mem_cons_self
      exact h.processed ((hs.linked hinit).pending p hp).2.1 hq
  cases hs.moves hst with
  | opened created hno =>
    have hnil := (hs.shut hno).queue
    refine ⟨fun _ ↦ List.mem_append_right _ List.mem_cons_self, fun p hp ↦ ?_, h.noted,
      fun p hp ↦ ?_⟩
    · rw [Chain.opened, hnil] at hp
      cases hp
    · have hlt : m.chain.brk < p := hp
      rw [Chain.opened]
      simp only [Function.update_of_ne hlt.ne']
      exact h.blank p hlt.le
  | refused created b =>
    exact h.of_frame h.zero (fun _ hq ↦ hq) (fun _ _ ↦ rfl) (.inl rfl) rfl fun _ _ ↦ rfl
  | called c hc =>
    rw [Lifecycle.called_chain]
    by_cases hclosed : (!m.chain.isInitiated || m.chain.currentlyBlocked) = true
    · rcases perform_closed_cases (H := H) hclosed hc with heq | ⟨p, hp, heq⟩
      · rwa [heq]
      · have hinit : m.chain.isInitiated = true := by
          by_contra hno
          rw [(hs.shut (by simpa using hno)).queue] at hp
          cases hp
        rw [heq]
        exact h.flag ((hs.linked hinit).pending p hp).2.1
    · exact h.perform hl (hs.linked_of_open hclosed) hc
  | idle pick seed hq => exact h
  | took p rest pick seed hinit hq => exact htook hinit hq
  | closed =>
    rw [closeChain]
    split
    · exact h.of_frame h.zero (fun _ hq ↦ hq) (fun _ _ ↦ rfl) (.inl rfl) rfl fun _ _ ↦ rfl
    · exact h
  | drained p rest pick seed hinit hq => exact htook hinit hq
  | finished hq =>
    exact h.of_frame (fun hinit ↦ by cases hinit) (fun _ hq ↦ hq) (fun _ _ ↦ rfl) (.inl rfl) rfl
      fun _ _ ↦ rfl

theorem Lifecycle.fresh_traced : Traced Lifecycle.fresh.chain :=
  ⟨fun h ↦ absurd h Bool.false_ne_true, fun _ hp ↦ absurd hp List.not_mem_nil, .inl rfl,
    fun _ _ ↦ rfl⟩

/-- **The run lemma.** -/
theorem Lifecycle.exec_traced (h : Run.exec (Lifecycle.step H) .fresh es = some m) :
    m.Sound ∧ Traced m.chain := by
  have h0 : Lifecycle.fresh.Sound ∧ Listed Lifecycle.fresh.chain :=
    Lifecycle.exec_listed (H := H) (Run.exec_nil _)
  obtain ⟨⟨hs, -⟩, ht⟩ := Run.exec_induction
    (I := fun m : Lifecycle ↦ (m.Sound ∧ Listed m.chain) ∧ Traced m.chain)
    (fun _ _ _ hm hst ↦ ⟨⟨hm.1.1.step hst, hm.1.2.step hm.1.1 hst⟩, hm.2.step hm.1.2 hm.1.1 hst⟩)
    ⟨h0, Lifecycle.fresh_traced⟩ h
  exact ⟨hs, ht⟩

/-! ## The closing thread -/

/-- What the closing thread prints about a block. -/
structure Line where
  /-- `getHashedData()`. -/
  hashedData : Option (List UInt8)
  /-- `getIndex()`. -/
  index : ℤ
  deriving DecidableEq, Repr

/-- What is printed after a round of the loop of `closeChainThread`.  A block whose father is not
there any more has been deleted by then, so what is read from it is anything. -/
def drainLine (H : HashLib) (s : Chain) (p : BlockPtr) (pick seed : ℕ) : Option Line :=
  if s.fatherOf p pick ∈ s.blockMap then
    let b := (drainBlock H s pick seed).2.heap p
    some ⟨b.hashedData, b.index⟩
  else none

/-- What is printed at an event. -/
def Lifecycle.prints (H : HashLib) (m : Lifecycle) : LifeEvent → List (Option Line)
  | .drain pick seed =>
    (m.chain.blockQueue.head?.map fun p ↦ drainLine H m.chain p pick seed).toList
  | _ => []

/-- What is printed in a run. -/
def Lifecycle.printed (H : HashLib) : Lifecycle → List LifeEvent → List (Option Line)
  | _, [] => []
  | m, e :: es => m.prints H e ++
      match m.step H e with
      | some m' => Lifecycle.printed H m' es
      | none => []

/-- A block that the closing thread takes is attached to the longest chain, or its father is there.
-/
def Lifecycle.FindsFather (m : Lifecycle) : LifeEvent → Prop
  | .drain _ _ => ∀ p, m.chain.blockQueue.head? = some p → m.chain.Fathered p
  | _ => True

/-- A block of `t` has the number it had in `s`, and the hash of the data it had there. -/
def HashedIn (H : HashLib) (s t : Chain) (p : BlockPtr) : Prop :=
  (t.heap p).index = (s.heap p).index ∧ ∃ father seed,
    (t.heap p).hashedData = some (H.generateHash (s.heap p).data (s.heap p).lenData
      (H.generateNonce (s.heap p).index father seed))

/-- What a run of the closing thread from `m` to `m'` has done. -/
structure Closing (H : HashLib) (m : Lifecycle) (es : List LifeEvent) (m' : Lifecycle)
    (taken : List BlockPtr) : Prop where
  /-- The blocks were taken in the order of the queue. -/
  queue : m.chain.blockQueue = taken ++ m'.chain.blockQueue
  /-- Blocks that were not pending are as they were. -/
  others : ∀ p, p ∉ m.chain.blockQueue → m'.chain.heap p = m.chain.heap p
  /-- Pending blocks that were not taken can be flagged. -/
  pending : ∀ p ∈ m'.chain.blockQueue, ∃ b,
    m'.chain.heap p = { m.chain.heap p with attachToLongest := b }
  /-- The blocks that were taken are hashed. -/
  hashed : ∀ p ∈ taken, HashedIn H m.chain m'.chain p
  /-- The number that is noted is that of the last block taken. -/
  noted : m'.chain.isInDaemon =
    (taken.getLast?.map fun p ↦ (m.chain.heap p).index).getD m.chain.isInDaemon
  /-- They are all printed if they all found a father. -/
  prints : (m.printed H es = taken.map fun p ↦
      some ⟨(m'.chain.heap p).hashedData, (m.chain.heap p).index⟩) ↔
    Run.Meets (Lifecycle.step H) Lifecycle.FindsFather m es

/-- What a step that takes no block leaves alone while the chain is being closed. -/
structure Waits (s t : Chain) : Prop where
  /-- The pending blocks. -/
  queue : t.blockQueue = s.blockQueue
  /-- The number that is noted. -/
  noted : t.isInDaemon = s.isInDaemon
  /-- Blocks that are not pending. -/
  others : ∀ p, p ∉ s.blockQueue → t.heap p = s.heap p
  /-- Pending blocks can be flagged. -/
  flags : ∀ p, ∃ b, t.heap p = { s.heap p with attachToLongest := b }

theorem Waits.refl (s : Chain) : Waits s s := ⟨rfl, rfl, fun _ _ ↦ rfl, fun _ ↦ ⟨_, rfl⟩⟩

theorem Waits.toLongest (s : Chain) (k : ℤ) : Waits s (toLongest s k).2 := by
  rcases toLongest_cases s k with heq | ⟨p, hp, heq⟩
  · rw [heq]
    exact .refl s
  · rw [heq]
    refine ⟨rfl, rfl, fun q hq ↦ ?_, fun q ↦ ?_⟩
    · have hne : q ≠ p := fun heq ↦ hq (heq ▸ hp)
      simp [Chain.modify, hne]
    · by_cases hqp : q = p
      · exact ⟨true, by simp [Chain.modify, hqp]⟩
      · exact ⟨_, by simp [Chain.modify, hqp]; rfl⟩

/-- **A step while the chain is being closed**: a block is taken, or nothing happens. -/
theorem Lifecycle.Sound.blocked_step (hs : m.Sound) (hinit : m.chain.isInitiated = true)
    (hblk : m.chain.currentlyBlocked = true) (hst : m.step H e = some m') (hfin : e ≠ .finish) :
    (m'.chain.isInitiated = true ∧ m'.chain.currentlyBlocked = true) ∧
      ((∃ p rest pick seed, e = .drain pick seed ∧ m.chain.blockQueue = p :: rest ∧
          m'.chain = { m.chain.processed H p rest pick seed with
            sizeCounter := m.chain.sizeCounter }) ∨
        (∀ pick seed, e ≠ .drain pick seed) ∧ Waits m.chain m'.chain) := by
  have hclosed : (!m.chain.isInitiated || m.chain.currentlyBlocked) = true := by simp [hblk]
  match e with
  | .init created =>
    have hrefuse : initBlockchain m.chain created = (.ret fail, m.chain) := by
      simp [initBlockchain, hblk]
    rw [Lifecycle.step, hrefuse] at hst
    rw [← Option.some.inj hst]
    exact ⟨⟨hinit, hblk⟩, .inr ⟨by simp, .refl _⟩⟩
  | .call c =>
    obtain ⟨hcall, heq⟩ : c.isCall = true ∧
        m'.chain = (Blockchain.perform H m.chain c).2 := by
      cases hs.moves hst with
      | called c hcall => exact ⟨hcall, called_chain ..⟩
    rw [heq]
    rcases perform_of_closed (H := H) hclosed hcall with hsame | ⟨k, rfl⟩
    · rw [hsame]
      exact ⟨⟨hinit, hblk⟩, .inr ⟨by simp, .refl _⟩⟩
    · refine ⟨?_, .inr ⟨by simp, .toLongest _ k⟩⟩
      rw [Blockchain.perform]
      rcases toLongest_cases m.chain k with hsame | ⟨p, -, hsame⟩
      · rw [hsame]
        exact ⟨hinit, hblk⟩
      · rw [hsame]
        exact ⟨hinit, hblk⟩
  | .daemon pick seed =>
    rw [Lifecycle.step, if_pos hblk] at hst
    cases hst
  | .close =>
    rw [Lifecycle.step, closeChain, if_pos hinit] at hst
    rw [← Option.some.inj hst]
    exact ⟨⟨hinit, rfl⟩, .inr ⟨by simp, rfl, rfl, fun _ _ ↦ rfl, fun _ ↦ ⟨_, rfl⟩⟩⟩
  | .drain pick seed =>
    obtain ⟨p, rest, hq, heq⟩ : ∃ p rest, m.chain.blockQueue = p :: rest ∧
        m'.chain = { m.chain.processed H p rest pick seed with
          sizeCounter := m.chain.sizeCounter } := by
      cases hs.moves hst with
      | drained p rest _ _ _ hq => exact ⟨p, rest, hq, rfl⟩
    rw [heq]
    exact ⟨⟨hinit, hblk⟩, .inl ⟨p, rest, pick, seed, rfl, hq, rfl⟩⟩
  | .finish => exact absurd rfl hfin

variable {taken : List BlockPtr} {m₁ m₂ : Lifecycle}

/-- A run after its first step. -/
theorem meets_cons_iff {ok : Lifecycle → LifeEvent → Prop} (hst : m.step H e = some m₁) :
    Run.Meets (Lifecycle.step H) ok m (e :: es) ↔ ok m e ∧ Run.Meets (Lifecycle.step H) ok m₁ es :=
  ⟨fun h ↦ h m₁ hst, fun h t ht ↦ by rwa [← Option.some.inj (hst.symm.trans ht)]⟩

/-- A step that takes no block, before a run of the closing thread. -/
theorem Closing.wait (h : Closing H m₁ es m₂ taken) (hw : Waits m.chain m₁.chain)
    (hst : m.step H e = some m₁) (he : ∀ pick seed, e ≠ .drain pick seed) :
    Closing H m (e :: es) m₂ taken := by
  have hidx : ∀ p, (m₁.chain.heap p).index = (m.chain.heap p).index := fun p ↦ by
    obtain ⟨b, hb⟩ := hw.flags p
    rw [hb]
  have hprints : m.prints H e = [] := by
    match e with
    | .drain pick seed => exact absurd rfl (he pick seed)
    | .init _ | .call _ | .daemon .. | .close | .finish => rfl
  have hfinds : m.FindsFather e := by
    match e with
    | .drain pick seed => exact absurd rfl (he pick seed)
    | .init _ | .call _ | .daemon .. | .close | .finish => trivial
  refine ⟨by rw [← hw.queue, h.queue], fun p hp ↦ ?_, fun p hp ↦ ?_, fun p hp ↦ ?_, ?_, ?_⟩
  · rw [h.others p (by rwa [hw.queue]), hw.others p hp]
  · obtain ⟨b, hb⟩ := h.pending p hp
    obtain ⟨c, hc⟩ := hw.flags p
    exact ⟨b, by rw [hb, hc]⟩
  · obtain ⟨hi, f, seed, hh⟩ := h.hashed p hp
    obtain ⟨c, hc⟩ := hw.flags p
    rw [hc] at hh hi
    exact ⟨hi, f, seed, hh⟩
  · rw [h.noted, hw.noted]
    simp only [hidx]
  · have hiff := h.prints
    simp only [hidx] at hiff
    rw [meets_cons_iff hst, Lifecycle.printed, hst, hprints, List.nil_append, hiff]
    exact (and_iff_right hfinds).symm

/-- A block is printed with its hash if its father is there. -/
theorem drainLine_eq_iff {rest : List BlockPtr} (h : Linked s.reopened)
    (hq : s.blockQueue = p :: rest) :
    drainLine H s p pick seed = some ⟨(s.hashed H p pick seed).hashedData, (s.heap p).index⟩ ↔
      s.fatherOf p pick ∈ s.blockMap := by
  rw [drainLine]
  split
  · rename_i hf
    refine iff_of_true ?_ hf
    rw [h.drainBlock_eq hq]
    simp only [processed_heap_self]
    rfl
  · rename_i hf
    exact iff_of_false (by simp) hf

/-- A step that takes a block, before a run of the closing thread. -/
theorem Closing.take {rest : List BlockPtr} (h : Closing H m₁ es m₂ taken)
    (hlinked : Linked m.chain.reopened) (hq : m.chain.blockQueue = p :: rest)
    (heq : m₁.chain = { m.chain.processed H p rest pick seed with
      sizeCounter := m.chain.sizeCounter })
    (hst : m.step H (.drain pick seed) = some m₁) :
    Closing H m (.drain pick seed :: es) m₂ (p :: taken) := by
  have hrest : m₁.chain.blockQueue = rest := by rw [heq]; rfl
  have hnd : p ∉ rest := by
    have hnodup := hlinked.queue_nodup
    rw [show m.chain.reopened.blockQueue = p :: rest from hq] at hnodup
    exact (List.nodup_cons.mp hnodup).1
  have hidx : ∀ r, (m₁.chain.heap r).index = (m.chain.heap r).index := fun r ↦ by
    rw [heq]
    exact processed_index H m.chain p rest pick seed r
  have hother : ∀ r, r ≠ p → m₁.chain.heap r = m.chain.heap r := fun r hr ↦ by
    rw [heq]
    exact Function.update_of_ne hr _ _
  have hself : m₂.chain.heap p = m.chain.hashed H p pick seed := by
    rw [h.others p (by rwa [hrest]), heq]
    exact Function.update_self _ _ _
  have hsub : ∀ r ∈ taken, r ≠ p := by
    rintro r hr rfl
    rw [← hrest, h.queue] at hnd
    exact hnd (List.mem_append_left _ hr)
  refine ⟨by rw [hq, ← hrest, h.queue, List.cons_append], fun r hr ↦ ?_, fun r hr ↦ ?_,
    fun r hr ↦ ?_, ?_, ?_⟩
  · rw [hq, List.mem_cons, not_or] at hr
    rw [h.others r (by rw [hrest]; exact hr.2), hother r hr.1]
  · obtain ⟨b, hb⟩ := h.pending r hr
    have hne : r ≠ p := by
      rintro rfl
      rw [← hrest, h.queue] at hnd
      exact hnd (List.mem_append_right _ hr)
    exact ⟨b, by rw [hb, hother r hne]⟩
  · rcases List.mem_cons.mp hr with rfl | hr
    · refine ⟨by rw [hself]; rfl, m.chain.fatherOf r pick, seed, ?_⟩
      rw [hself]
      rfl
    · obtain ⟨hi, f, seed', hh⟩ := h.hashed r hr
      rw [hother r (hsub r hr)] at hi hh
      exact ⟨hi, f, seed', hh⟩
  · have hnote : m₁.chain.isInDaemon = (m.chain.heap p).index := by rw [heq]; rfl
    rw [h.noted, hnote, List.getLast?_cons, Option.map_some, Option.getD_some]
    simp only [hidx]
    cases taken.getLast? <;> rfl
  · have hiff := h.prints
    simp only [hidx] at hiff
    have hfinds : m.FindsFather (.drain pick seed) ↔
        m.chain.fatherOf p pick ∈ m.chain.blockMap := by
      refine Iff.trans ?_ hlinked.fatherOf_mem_iff.symm
      rw [Lifecycle.FindsFather, hq]
      simp only [List.head?_cons, Option.some.injEq, forall_eq']
      rfl
    have hline : drainLine H m.chain p pick seed =
        some ⟨(m₂.chain.heap p).hashedData, (m.chain.heap p).index⟩ ↔ _ :=
      hself ▸ drainLine_eq_iff hlinked hq
    rw [meets_cons_iff hst, Lifecycle.printed, hst, hfinds, ← hline, ← hiff, Lifecycle.prints, hq]
    simp

/-- **The run lemma.** -/
theorem Lifecycle.Sound.exec_closing (hs : m.Sound) (hinit : m.chain.isInitiated = true)
    (hblk : m.chain.currentlyBlocked = true) (h : Run.exec (Lifecycle.step H) m es = some m')
    (hfin : LifeEvent.finish ∉ es) : ∃ taken, Closing H m es m' taken := by
  induction es generalizing m with
  | nil =>
    obtain rfl : m = m' := Option.some.inj h
    exact ⟨[], rfl, fun _ _ ↦ rfl, fun _ _ ↦ ⟨_, rfl⟩, by simp, rfl, iff_of_true rfl trivial⟩
  | cons e es ih =>
    obtain ⟨m₁, hst, hes⟩ := Run.exec_cons_eq_some.mp h
    rw [List.mem_cons, not_or] at hfin
    obtain ⟨⟨hinit₁, hblk₁⟩, hstep⟩ := hs.blocked_step hinit hblk hst (Ne.symm hfin.1)
    obtain ⟨taken, hclosing⟩ := ih (hs.step hst) hinit₁ hblk₁ hes hfin.2
    rcases hstep with ⟨p, rest, pick, seed, rfl, hq, heq⟩ | ⟨he, hw⟩
    · exact ⟨p :: taken, hclosing.take (hs.linked hinit) hq heq hst⟩
    · exact ⟨taken, hclosing.wait hw hst he⟩

/-! ## A closed chain and a fresh process -/

/-- Each block that was pending in `s` is hashed and printed once, in the order of the queue. -/
structure PrintsPending (H : HashLib) (s t : Chain) (lines : List (Option Line)) : Prop where
  /-- What is printed. -/
  lines : lines = s.blockQueue.map fun p ↦ some ⟨(t.heap p).hashedData, (s.heap p).index⟩
  /-- The hashes. -/
  hashed : ∀ p ∈ s.blockQueue, HashedIn H s t p

/-- The globals are those of a fresh process. -/
structure Forgotten (s : Chain) : Prop where
  /-- No block is attached. -/
  map : s.blockMap = Chain.fresh.blockMap
  /-- No block is pending. -/
  queue : s.blockQueue = Chain.fresh.blockQueue
  /-- No number is in use. -/
  numbers : s.vecIndex = Chain.fresh.vecIndex
  /-- The counter is zero. -/
  counter : s.sizeCounter = Chain.fresh.sizeCounter
  /-- No number is noted. -/
  noted : s.isInDaemon = Chain.fresh.isInDaemon
  /-- The chain is not open. -/
  initiated : s.isInitiated = Chain.fresh.isInitiated
  /-- It is not being closed. -/
  blocked : s.currentlyBlocked = Chain.fresh.currentlyBlocked

/-- After a new `init_blockchain`, all calls return what they return in a fresh process. -/
def AnswersLikeFresh (H : HashLib) (s : Chain) : Prop :=
  ∀ us, Mealy.answers (respond H) s (.init true :: us) =
    Mealy.answers (respond H) Chain.fresh (.init true :: us)

/-- No block was ever taken, and none is pending. -/
structure Untouched (s : Chain) : Prop where
  /-- No number is noted. -/
  noted : s.isInDaemon = -1
  /-- No block is pending. -/
  queue : s.blockQueue = []

/-- A chain that was closed is a fresh one at other addresses, but for the number that is noted. -/
theorem Traced.shifted (h : Traced s) (hq : s.blockQueue = []) (hnoted : s.isInDaemon = -1) :
    Shifted s.brk Chain.fresh (resetChain s) := by
  refine ⟨fun p ↦ h.blank _ (Nat.le_add_left _ _), (Nat.zero_add _).symm, fun k ↦ ?_, hq, rfl, rfl,
    rfl, hnoted, rfl, rfl⟩
  simp [resetChain, Chain.fresh]

/-- What `was_added` returns right after the chain was opened. -/
theorem wasAdded_opened (hmap : s.blockMap = ∅) (hq : s.blockQueue = []) (hk : 0 < k) :
    wasAdded s.opened k = if k = s.isInDaemon then notFound else unsuccessful := by
  have hmem : k ∉ s.opened.blockMap := by
    rw [Chain.opened, hmap, Std.TreeMap.mem_insertIfNew, Std.compare_eq_iff_eq]
    simp [hk.ne]
  have hexist : existBlock s.opened k = fail := by
    rw [existBlock, Chain.opened, hq]
    rfl
  simp only [wasAdded, hexist, hmem]
  simp [Chain.opened]

/-- **A noted number shows.** -/
theorem answersLikeFresh_iff (h : Traced s) (hq : s.blockQueue = []) :
    AnswersLikeFresh H (resetChain s) ↔ s.isInDaemon = -1 := by
  constructor
  · intro halike
    by_contra hne
    have hpos := h.noted.resolve_left hne
    have hans := halike [.wasAdded s.isInDaemon]
    have hopen : ∀ t : Chain, t.isInitiated = false → t.currentlyBlocked = false →
        t.sMutex = false → initBlockchain t true = (.ret success, t.opened) := by
      intro t h1 h2 h3
      simp [initBlockchain, Chain.opened, h1, h2, h3]
    simp only [Mealy.answers, respond, hopen (resetChain s) rfl rfl rfl,
      hopen Chain.fresh rfl rfl rfl, wasAdded_opened (s := resetChain s) rfl hq hpos,
      wasAdded_opened (s := Chain.fresh) rfl rfl hpos] at hans
    rw [if_pos (show s.isInDaemon = (resetChain s).isInDaemon from rfl),
      if_neg (show ¬s.isInDaemon = Chain.fresh.isInDaemon from hne)] at hans
    simp [notFound, unsuccessful] at hans
  · intro hnoted us
    exact (((h.shifted hq hnoted).alike) (.init true :: us)).symm

theorem forgotten_iff (hq : s.blockQueue = []) :
    Forgotten (resetChain s) ↔ s.isInDaemon = -1 :=
  ⟨fun h ↦ h.noted, fun h ↦ ⟨rfl, hq, rfl, rfl, h, rfl, rfl⟩⟩

/-- **When closing forgets everything.**  In a run that goes on from `close_chain` in the state `m`
up to the end of the closing thread,

* the pending blocks are all printed exactly if each of them finds a father when it is taken,
* the globals are those of a fresh process exactly if no block was ever taken and none is pending,
* and so are all answers after a new `init_blockchain`. -/
theorem close_forgets_iff {es : List LifeEvent} {m₁ m₂ : Lifecycle}
    (h : Run.exec (Lifecycle.step H) .fresh es = some m) (hinit : m.chain.isInitiated = true)
    (hclose : m.step H .close = some m₁) {fs : List LifeEvent} (hfin : LifeEvent.finish ∉ fs)
    (hrun : Run.exec (Lifecycle.step H) m₁ fs = some m₂) (hend : m₂.step H .finish = some m') :
    (PrintsPending H m.chain m'.chain (m₁.printed H fs) ↔
        Run.Meets (Lifecycle.step H) Lifecycle.FindsFather m₁ fs) ∧
      (Forgotten m'.chain ↔ Untouched m.chain) ∧
      (AnswersLikeFresh H m'.chain ↔ Untouched m.chain) := by
  obtain ⟨hs, htraced⟩ := Lifecycle.exec_traced h
  have hall : Run.exec (Lifecycle.step H) .fresh (es ++ .close :: fs) = some m₂ := by
    rw [Run.exec_append, h, Option.bind_some]
    exact Run.exec_cons_eq_some.mpr ⟨m₁, hclose, hrun⟩
  obtain ⟨hs₂, htraced₂⟩ := Lifecycle.exec_traced hall
  have hchain₁ : m₁.chain = { m.chain with currentlyBlocked := true } := by
    rw [Lifecycle.step, closeChain, if_pos hinit] at hclose
    rw [← Option.some.inj hclose]
  obtain ⟨hchain', hnil⟩ : m'.chain = resetChain m₂.chain ∧ m₂.chain.blockQueue = [] := by
    cases hs₂.moves hend with
    | finished hq => exact ⟨rfl, hq⟩
  obtain ⟨taken, hclosing⟩ := (hs.step hclose).exec_closing (by rw [hchain₁]; exact hinit)
    (by rw [hchain₁]) hrun hfin
  have htaken : m.chain.blockQueue = taken := by
    have hq := hclosing.queue
    rwa [hnil, List.append_nil, hchain₁] at hq
  -- a block that is taken has a positive number, and that is noted
  have huntouched : m₂.chain.isInDaemon = -1 ↔ Untouched m.chain := by
    have hnoted := hclosing.noted
    rw [hchain₁] at hnoted
    cases taken with
    | nil =>
      rw [hnoted]
      exact ⟨fun h ↦ ⟨h, htaken⟩, fun h ↦ h.noted⟩
    | cons p rest =>
      refine iff_of_false (fun h ↦ ?_) fun h ↦ by simp [h.queue] at htaken
      obtain ⟨q, hq⟩ := Option.isSome_iff_exists.mp
        (List.getLast?_isSome.mpr (List.cons_ne_nil p rest))
      have hpos := htraced.pending q (htaken ▸ List.mem_of_getLast? hq)
      rw [hq, Option.map_some, Option.getD_some] at hnoted
      have hneg : (m.chain.heap q).index = -1 := hnoted.symm.trans h
      omega
  refine ⟨?_, ?_, ?_⟩
  · have hsame : ∀ p, m'.chain.heap p = m₂.chain.heap p := fun p ↦ by rw [hchain']; rfl
    have hprints := hclosing.prints
    have hhashed := hclosing.hashed
    simp only [hchain₁] at hprints hhashed
    rw [← hprints]
    refine ⟨fun hp ↦ ?_, fun hlines ↦ ⟨?_, fun p hp ↦ ?_⟩⟩
    · rw [hp.lines, htaken]
      simp only [hsame]
    · rw [hlines, htaken]
      simp only [hsame]
    · have hp' := hhashed p (htaken ▸ hp)
      rwa [HashedIn, ← hsame] at hp'
  · rw [hchain', forgotten_iff hnil, huntouched]
  · rw [hchain', answersLikeFresh_iff htraced₂ hnil, huntouched]

/-- A block is added, and the daemon attaches it. -/
def attachedEvents : List LifeEvent := openedEvents [.addBlock none 0 0, .daemon 0 0]

theorem exec_attachedEvents :
    ∃ m, Run.exec (Lifecycle.step plainHash) .fresh attachedEvents = some m ∧
      (m.chain.isInitiated, m.chain.blockQueue, m.chain.isInDaemon) = (true, [], 1) := by
  rw [← Option.map_eq_some_iff]
  decide

theorem exec_orphanEvents :
    ∃ m₁, Run.exec (Lifecycle.step plainHash) .fresh (openedEvents orphanEvents ++ [.close]) =
        some m₁ ∧
      m₁.printed plainHash [.drain 0 0] = [none] := by
  rw [← Option.map_eq_some_iff]
  decide

/-- Closing a chain whose queue is empty. -/
theorem exists_finish (hinit : m.chain.isInitiated = true) (hq : m.chain.blockQueue = []) :
    ∃ m₁, m.step H .close = some m₁ ∧ ∃ m', m₁.step H .finish = some m' ∧
      m'.chain = resetChain m.chain := by
  refine ⟨_, rfl, _, if_neg ?_, ?_⟩
  · rw [closeChain, if_pos hinit, if_pos hinit]
    simp [hq]
  · rw [closeChain, if_pos hinit]
    rfl

theorem not_printsPending {lines : List (Option Line)} (h : none ∈ lines) :
    ¬PrintsPending H s t lines := by
  intro hp
  rw [hp.lines] at h
  obtain ⟨p, -, hnone⟩ := List.mem_map.mp h
  cases hnone

/-- After a block was taken, closing leaves its number noted, and `was_added` tells; and a block
whose father was pruned is deleted before it is printed. -/
theorem exists_not_forgotten :
    (∃ m m₁ m', Run.exec (Lifecycle.step plainHash) .fresh attachedEvents = some m ∧
        m.step plainHash .close = some m₁ ∧ m₁.step plainHash .finish = some m' ∧
        ¬Forgotten m'.chain ∧ ¬AnswersLikeFresh plainHash m'.chain) ∧
      ∃ m m₁, Run.exec (Lifecycle.step plainHash) .fresh (openedEvents orphanEvents) = some m ∧
        m.step plainHash .close = some m₁ ∧
        ∀ t, ¬PrintsPending plainHash m.chain t (m₁.printed plainHash [.drain 0 0]) := by
  constructor
  · obtain ⟨m, hm, h⟩ := exec_attachedEvents
    simp only [Prod.mk.injEq] at h
    obtain ⟨hinit, hq, hnoted⟩ := h
    obtain ⟨m₁, hclose, m', hend, hchain⟩ := exists_finish (H := plainHash) hinit hq
    refine ⟨m, m₁, m', hm, hclose, hend, ?_, ?_⟩
    · rw [hchain, forgotten_iff hq, hnoted]
      decide
    · rw [hchain, answersLikeFresh_iff (Lifecycle.exec_traced hm).2 hq, hnoted]
      decide
  · obtain ⟨m₁, hm₁, hlines⟩ := exec_orphanEvents
    rw [Run.exec_append, Option.bind_eq_some_iff] at hm₁
    obtain ⟨m, hm, hclose⟩ := hm₁
    obtain ⟨m₁', hst, hnil⟩ := Run.exec_cons_eq_some.mp hclose
    obtain rfl : m₁' = m₁ := Option.some.inj hnil
    exact ⟨m, m₁', hm, hst, fun t ↦ not_printsPending (by simp [hlines])⟩

/-- Block 1 is attached, and block 2 waits. -/
def waitingEvents : List LifeEvent :=
  openedEvents [.addBlock none 0 0, .daemon 0 0, .addBlock none 0 0]

/-- The closing thread takes block 2, whose father is there, and ends. -/
theorem exec_waitingEvents :
    ∃ m m₁ m₂ m', Run.exec (Lifecycle.step plainHash) .fresh waitingEvents = some m ∧
      m.step plainHash .close = some m₁ ∧ m₁.step plainHash (.drain 0 0) = some m₂ ∧
      m₂.step plainHash .finish = some m' ∧
      (m.chain.isInitiated, m.chain.blockQueue) = (true, [2]) ∧
      (m₁.chain.blockQueue, decide ((m₁.chain.heap 2).fatherIndex ∈ m₁.chain.blockMap)) =
        ([2], true) := by
  have h : ((Run.exec (Lifecycle.step plainHash) .fresh waitingEvents).bind fun m ↦
      (m.step plainHash .close).bind fun m₁ ↦ (m₁.step plainHash (.drain 0 0)).bind fun m₂ ↦
        (m₂.step plainHash .finish).map fun _ ↦ ((m.chain.isInitiated, m.chain.blockQueue),
          (m₁.chain.blockQueue, decide ((m₁.chain.heap 2).fatherIndex ∈ m₁.chain.blockMap)))) =
      some ((true, [2]), ([2], true)) := by
    decide
  obtain ⟨m, hm, h⟩ := Option.bind_eq_some_iff.mp h
  obtain ⟨m₁, hclose, h⟩ := Option.bind_eq_some_iff.mp h
  obtain ⟨m₂, hdrain, h⟩ := Option.bind_eq_some_iff.mp h
  obtain ⟨m', hend, h⟩ := Option.map_eq_some_iff.mp h
  exact ⟨m, m₁, m₂, m', hm, hclose, hdrain, hend, Prod.mk.inj h⟩

theorem close_forgets_iff_sample :
    ∃ m m₁ m₂ m', Run.exec (Lifecycle.step plainHash) .fresh waitingEvents = some m ∧
      m.step plainHash .close = some m₁ ∧
      Run.exec (Lifecycle.step plainHash) m₁ [.drain 0 0] = some m₂ ∧
      m₂.step plainHash .finish = some m' ∧ m.chain.blockQueue = [2] ∧
      PrintsPending plainHash m.chain m'.chain (m₁.printed plainHash [.drain 0 0]) ∧
      ¬Forgotten m'.chain ∧ ¬AnswersLikeFresh plainHash m'.chain := by
  obtain ⟨m, m₁, m₂, m', hm, hclose, hdrain, hend, h, h₁⟩ := exec_waitingEvents
  simp only [Prod.mk.injEq, decide_eq_true_eq] at h h₁
  have hrun : Run.exec (Lifecycle.step plainHash) m₁ [.drain 0 0] = some m₂ :=
    Run.exec_cons_eq_some.mpr ⟨m₂, hdrain, Run.exec_nil m₂⟩
  obtain ⟨hprints, hforgotten, hanswers⟩ :=
    close_forgets_iff hm h.1 hclose (by simp) hrun hend
  have hfinds : Run.Meets (Lifecycle.step plainHash) Lifecycle.FindsFather m₁ [.drain 0 0] := by
    refine fun _ _ ↦ ⟨fun p hp ↦ ?_, trivial⟩
    rw [h₁.1] at hp
    cases hp
    exact .inr h₁.2
  have htouched : ¬Untouched m.chain := fun hu ↦ by
    have hqueue := hu.queue
    rw [h.2] at hqueue
    cases hqueue
  exact ⟨m, m₁, m₂, m', hm, hclose, hrun, hend, h.2, hprints.mpr hfinds,
    mt hforgotten.mp htouched, mt hanswers.mp htouched⟩

end Blockchain
