import OsExercises.Blockchain.Lifecycle

/-!
# What a block is hashed with

`add_block` copies the data of a block and chooses a father for it; the nonce is requested, and the
father's number and the father are set, when the block is taken out of the queue.

* `Posted` is the program, with the arguments of `add_block` written down for every block.
* `Hashed` says that the hash of a block is that of these data, with a nonce for the block's own
  number and for the number of the block that it points to.
* `Books` is the invariant, and `Keeps` what most steps leave alone.
* `always_hashed`: every attached block but the genesis block is hashed so, in every state of every
  run.
-/

set_option autoImplicit false

namespace Blockchain

variable {H : HashLib} {s t : Chain} {p q r : BlockPtr} {k : ℤ} {pick seed : ℕ}

/-! ## What was asked for -/

/-- The arguments of `add_block`. -/
structure Post where
  data : Option (List UInt8)
  length : ℤ

/-- The first `length` bytes of the data. -/
def Post.bytes (x : Post) : Option (List UInt8) := x.data.map fun d ↦ d.take x.length.toNat

/-- The program, and the arguments with which each of its blocks was added. -/
structure Posted where
  life : Lifecycle
  posts : BlockPtr → Option Post

/-- The global variables. -/
abbrev Posted.chain (m : Posted) : Chain := m.life.chain

/-- The arguments, after an event that has led to `t`: those of `add_block` are written down if it
has made a block. -/
def Posted.noted (m : Posted) (t : Chain) : LifeEvent → BlockPtr → Option Post
  | .call (.addBlock data length _) =>
    if t.brk = m.chain.brk then m.posts
    else Function.update m.posts m.chain.brk (some ⟨data, length⟩)
  | _ => m.posts

/-- What happens at an event. -/
def Posted.step (H : HashLib) (m : Posted) (e : LifeEvent) : Option Posted :=
  (m.life.step H e).map fun life ↦ ⟨life, m.noted life.chain e⟩

/-- The start of the program. -/
def Posted.fresh : Posted := ⟨.fresh, fun _ ↦ none⟩

/-- **The hash matches the father**: it was generated from the bytes `add_block` was given and from
a nonce for the block's own number and the number of its father, which is the number the block
keeps. -/
def Hashed (H : HashLib) (m : Posted) (p : BlockPtr) : Prop :=
  ∃ x q seed, m.posts p = some x ∧ m.chain.next p = some q ∧
    (m.chain.heap p).fatherIndex = (m.chain.heap q).index ∧
    (m.chain.heap p).hashedData = some (H.generateHash x.bytes x.length
      (H.generateNonce (m.chain.heap p).index (m.chain.heap q).index seed))

/-! ## The invariant -/

/-- The hash of a block that has a father is that of its data, for the father. -/
def Signed (H : HashLib) (s : Chain) (p : BlockPtr) : Prop :=
  ∀ q, s.next p = some q → (s.heap p).fatherIndex = (s.heap q).index ∧
    ∃ seed, (s.heap p).hashedData = some (H.generateHash (s.heap p).data (s.heap p).lenData
      (H.generateNonce (s.heap p).index (s.heap q).index seed))

/-- **What is written down is what the blocks hold.** -/
structure Books (H : HashLib) (s : Chain) (posts : BlockPtr → Option Post) : Prop where
  /-- The data were copied. -/
  copied : ∀ p x, posts p = some x →
    p < s.brk ∧ (s.heap p).data = x.bytes ∧ (s.heap p).lenData = x.length
  /-- A pending block was added. -/
  pending : ∀ p ∈ s.blockQueue, ∃ x, posts p = some x
  /-- So was an attached block that has a father. -/
  attached : ∀ p, s.Attached p → s.next p ≠ none → ∃ x, posts p = some x
  /-- Attached blocks are signed. -/
  signed : ∀ p, s.Attached p → Signed H s p

/-- What the hash of a block depends on, and where the block is attached. -/
def Block.core (b : Block) :
    Option (List UInt8) × ℤ × ℤ × ℤ × Option (List UInt8) × Option BlockPtr :=
  (b.data, b.lenData, b.index, b.fatherIndex, b.hashedData, b.next)

/-- What most steps leave alone. -/
structure Keeps (s t : Chain) : Prop where
  /-- Blocks are only added. -/
  brk_le : s.brk ≤ t.brk
  /-- They keep their data, their hashes and their fathers. -/
  core : ∀ r < s.brk, (t.heap r).core = (s.heap r).core
  /-- No block is attached. -/
  attached : ∀ r, t.Attached r → s.Attached r
  /-- No block is queued. -/
  queue : ∀ r ∈ t.blockQueue, r ∈ s.blockQueue

/-- Attached blocks and their fathers have addresses that are in use. -/
structure Bounded (s : Chain) : Prop where
  attached : ∀ p, s.Attached p → p < s.brk
  next : ∀ p q, s.Attached p → s.next p = some q → q < s.brk

theorem Linked.bounded (h : Linked s) : Bounded s :=
  ⟨h.lt_brk, fun _ _ hp hq ↦ h.lt_brk _ (h.next_attached hp hq)⟩

theorem core_eq_iff {b b' : Block} : b.core = b'.core ↔ b.data = b'.data ∧
    b.lenData = b'.lenData ∧ b.index = b'.index ∧ b.fatherIndex = b'.fatherIndex ∧
      b.hashedData = b'.hashedData ∧ b.next = b'.next := by
  simp only [Block.core, Prod.mk.injEq]

theorem Keeps.next (h : Keeps s t) (hp : p < s.brk) : t.next p = s.next p :=
  (core_eq_iff.mp (h.core p hp)).2.2.2.2.2

/-- Blocks that stay what they are stay signed. -/
theorem Signed.keep (h : Signed H s p) (hp : (t.heap p).core = (s.heap p).core)
    (hq : ∀ q, s.next p = some q → (t.heap q).index = (s.heap q).index) : Signed H t p := by
  obtain ⟨hdata, hlen, hindex, hfather, hhash, hnext⟩ := core_eq_iff.mp hp
  intro q hq'
  have hnext' : s.next p = some q := hnext.symm.trans hq'
  rw [hdata, hlen, hindex, hfather, hhash, hq q hnext']
  exact h q hnext'

/-- **The frame lemma.** -/
theorem Books.keep {posts : BlockPtr → Option Post} (h : Books H s posts) (hs : Bounded s)
    (hkeep : Keeps s t) : Books H t posts where
  copied p x hx := by
    obtain ⟨hp, hdata, hlen⟩ := h.copied p x hx
    obtain ⟨hdata', hlen', -⟩ := core_eq_iff.mp (hkeep.core p hp)
    exact ⟨hp.trans_le hkeep.brk_le, hdata'.trans hdata, hlen'.trans hlen⟩
  pending p hp := h.pending p (hkeep.queue p hp)
  attached p hp hne := by
    have hatt := hkeep.attached p hp
    rw [hkeep.next (hs.attached p hatt)] at hne
    exact h.attached p hatt hne
  signed p hp := by
    have hatt := hkeep.attached p hp
    refine (h.signed p hatt).keep (hkeep.core p (hs.attached p hatt)) fun q hq ↦ ?_
    exact (core_eq_iff.mp (hkeep.core q (hs.next p q hatt hq))).2.2.1

/-! ## What the calls leave alone -/

/-- A step that leaves the blocks and `blockMap` alone. -/
theorem Keeps.of_eq (hheap : t.heap = s.heap) (hbrk : s.brk ≤ t.brk)
    (hmap : ∀ (k : ℤ) p, t.blockMap[k]? = some p → s.blockMap[k]? = some p)
    (hqueue : ∀ r ∈ t.blockQueue, r ∈ s.blockQueue) : Keeps s t := by
  refine ⟨hbrk, fun r _ ↦ by rw [hheap], fun r hr ↦ ?_, hqueue⟩
  rw [Chain.Attached, hheap] at hr
  exact hmap _ r hr

theorem Keeps.refl (s : Chain) : Keeps s s := .of_eq rfl le_rfl (fun _ _ h ↦ h) fun _ h ↦ h

theorem core_flag (s : Chain) (p r : BlockPtr) :
    ((s.modify p fun b ↦ { b with attachToLongest := true }).heap r).core = (s.heap r).core := by
  by_cases hr : r = p
  · simp [Chain.modify, Block.core, hr]
  · simp [Chain.modify, hr]

/-- A step that changes none of the fields that matter, and attaches nothing. -/
theorem Keeps.of_core (hcore : ∀ r, (t.heap r).core = (s.heap r).core) (hbrk : t.brk = s.brk)
    (hmap : ∀ (k : ℤ) p, t.blockMap[k]? = some p → s.blockMap[k]? = some p)
    (hqueue : t.blockQueue = s.blockQueue) : Keeps s t := by
  refine ⟨hbrk.ge, fun r _ ↦ hcore r, fun r hr ↦ ?_, fun r hr ↦ hqueue ▸ hr⟩
  rw [Chain.Attached, (core_eq_iff.mp (hcore r)).2.2.1] at hr
  exact hmap _ r hr

theorem keeps_flag (s : Chain) (p : BlockPtr) :
    Keeps s (s.modify p fun b ↦ { b with attachToLongest := true }) :=
  .of_core (core_flag s p) rfl (fun _ _ h ↦ h) rfl

theorem core_mark (s : Chain) (l : List BlockPtr) (r : BlockPtr) :
    ((s.mark true l).heap r).core = (s.heap r).core := by
  rw [mark_heap]
  rfl

/-- Pruning only takes blocks away. -/
theorem keeps_pruned (s : Chain) (l : List BlockPtr) (v : List ℤ) :
    Keeps s ((s.mark true l).pruned v) := by
  refine .of_core (fun r ↦ ?_) rfl (fun k p hk ↦ ?_) rfl
  · rw [pruned_heap_eq]
    exact core_mark s l r
  · exact (getElem?_pruned.mp hk).1

/-- **The calls but `add_block`.** -/
theorem Linked.keeps (h : Linked s) {e : Event} (he : e.isCall = true)
    (hno : ∀ data length pick, e ≠ .addBlock data length pick) :
    Keeps s (Blockchain.perform H s e).2 := by
  match e with
  | .addBlock data length pick => exact absurd rfl (hno data length pick)
  | .toLongest k =>
    rw [Blockchain.perform]
    rcases toLongest_cases s k with heq | ⟨p, -, heq⟩
    · rw [heq]
      exact .refl s
    · rw [heq]
      exact keeps_flag s p
  | .attachNow k =>
    obtain ⟨q, hq, heq⟩ := attachNow_cases s k
    rw [Blockchain.perform, heq]
    exact .of_eq rfl le_rfl (fun _ _ h ↦ h) fun r hr ↦ hq.mem_iff.mp hr
  | .pruneChain pick pastEnd =>
    obtain ⟨p, l, -, -, -, heq⟩ := h.pruneChain_cases pick pastEnd
    rw [Blockchain.perform, heq]
    split
    · exact keeps_pruned s l _
    · exact .of_core (core_mark s l) rfl (fun _ _ h ↦ h) rfl

/-! ## Adding, attaching and opening -/

variable {posts : BlockPtr → Option Post}

/-- A block that is added is written down. -/
theorem Books.added (h : Books H s posts) (hs : Linked s) (x : Post) (f d : ℤ) :
    Books H (s.added x.data x.length f d) (Function.update posts s.brk (some x)) := by
  have hheap : ∀ {q}, q < s.brk → (s.added x.data x.length f d).heap q = s.heap q :=
    fun hq ↦ added_heap_of_lt _ _ _ _ hq
  have hatt : ∀ {q}, (s.added x.data x.length f d).Attached q → s.Attached q := by
    intro q hq
    have hlt : q < s.brk := by
      obtain ⟨k, hk⟩ : ∃ k : ℤ, s.blockMap[k]? = some q := ⟨_, hq⟩
      exact hs.lt_brk q (hs.attached hk)
    rw [Chain.Attached, hheap hlt] at hq
    exact hq
  constructor
  · intro p y hy
    by_cases hp : p = s.brk
    · subst hp
      obtain rfl : x = y := by simpa using hy
      rw [added_heap_self]
      exact ⟨Nat.lt_succ_self _, rfl, rfl⟩
    · rw [Function.update_of_ne hp] at hy
      obtain ⟨hlt, hdata⟩ := h.copied p y hy
      rw [hheap hlt]
      exact ⟨hlt.trans (Nat.lt_succ_self _), hdata⟩
  · intro p hp
    rcases mem_blockQueue_added.mp hp with hp | rfl
    · rw [Function.update_of_ne (hs.pending p hp).2.1.ne]
      exact h.pending p hp
    · exact ⟨x, Function.update_self ..⟩
  · intro p hp hne
    have hp' := hatt hp
    have hlt := hs.lt_brk p hp'
    rw [Chain.next, hheap hlt] at hne
    rw [Function.update_of_ne hlt.ne]
    exact h.attached p hp' hne
  · intro p hp
    have hp' := hatt hp
    refine (h.signed p hp').keep (by rw [hheap (hs.lt_brk p hp')]) fun q hq ↦ ?_
    rw [hheap (hs.bounded.next p q hp' hq)]

/-- The block that is taken is signed for the father it gets. -/
theorem signed_processed {rest : List BlockPtr} (hs : Linked s.reopened)
    (hf : s.blockMap[s.fatherOf p pick]? = some q) :
    Signed H (s.processed H p rest pick seed) p := by
  have hkey : (s.heap q).index = s.fatherOf p pick := hs.key _ q hf
  intro r hr
  rw [next_processed hf, Option.some.injEq] at hr
  subst hr
  rw [processed_index, processed_index, processed_heap_self, hkey]
  exact ⟨rfl, seed, rfl⟩

/-- **Taking a block** keeps the books. -/
theorem Books.processed {rest : List BlockPtr} (h : Books H s posts) (hs : Linked s.reopened)
    (hq : s.blockQueue = p :: rest) : Books H (s.processed H p rest pick seed) posts := by
  have hmem : p ∈ s.blockQueue := by rw [hq]; exact List.mem_cons_self
  constructor
  · intro r x hx
    obtain ⟨hlt, hdata, hlen⟩ := h.copied r x hx
    by_cases hr : r = p
    · rw [hr, processed_heap_self]
      rw [hr] at hlt hdata hlen
      exact ⟨hlt, hdata, hlen⟩
    · rw [processed_heap_of_ne hr]
      exact ⟨hlt, hdata, hlen⟩
  · intro r hr
    exact h.pending r (by rw [hq]; exact List.mem_cons_of_mem _ hr)
  · intro r hr hne
    rcases attached_processed_iff.mp hr with hold | ⟨rfl, -⟩
    · have hrp : r ≠ p := hs.ne_front hq hold
      rw [Chain.next, processed_heap_of_ne hrp] at hne
      exact h.attached r hold hne
    · exact h.pending r hmem
  · intro r hr
    rcases attached_processed_iff.mp hr with hold | ⟨rfl, hatt⟩
    · have hrp : r ≠ p := hs.ne_front hq hold
      refine (h.signed r hold).keep (by rw [processed_heap_of_ne hrp]) fun x _ ↦ ?_
      rw [processed_index]
    · obtain ⟨f, hf⟩ := exists_of_mem_blockMap hatt.1
      exact signed_processed hs hf

/-- Opening the chain attaches the genesis block, which has no father. -/
theorem Books.opened (h : Books H s posts) (hs : Shut s) : Books H s.opened posts := by
  have hgenesis : ∀ p, s.opened.Attached p → s.opened.next p = none := by
    intro p hp
    have hp : (s.blockMap.insertIfNew 0 s.brk)[(s.opened.heap p).index]? = some p := hp
    rw [Std.TreeMap.getElem?_insertIfNew, hs.map] at hp
    obtain rfl : s.brk = p := by
      split at hp
      · exact Option.some.inj hp
      · simp at hp
    have hheap : s.opened.heap s.brk = Block.new none 0 (-1) 0 0 := Function.update_self ..
    rw [Chain.next, hheap]
    rfl
  constructor
  · intro p x hx
    obtain ⟨hlt, hdata⟩ := h.copied p x hx
    have hheap : s.opened.heap p = s.heap p := Function.update_of_ne hlt.ne _ _
    rw [hheap]
    exact ⟨hlt.trans (Nat.lt_succ_self _), hdata⟩
  · exact h.pending
  · exact fun p hp hne ↦ absurd (hgenesis p hp) hne
  · intro p hp q hq
    rw [hgenesis p hp] at hq
    cases hq

/-! ## Runs -/

variable {m m' : Posted} {e : LifeEvent}

/-- Blocks are attached to an open chain only. -/
theorem Lifecycle.Sound.initiated {l : Lifecycle} (hs : l.Sound) (hp : l.chain.Attached p) :
    l.chain.isInitiated = true := by
  by_contra hno
  rw [Chain.Attached, (hs.shut (Bool.eq_false_of_not_eq_true hno)).map] at hp
  simp at hp

theorem Lifecycle.Sound.bounded {l : Lifecycle} (hs : l.Sound) : Bounded l.chain where
  attached p hp := (hs.linked (hs.initiated hp)).bounded.attached p hp
  next p q hp hq := (hs.linked (hs.initiated hp)).bounded.next p q hp hq

/-- When no block is made, nothing is written down. -/
theorem noted_of_brk (hbrk : t.brk = m.chain.brk) (e : LifeEvent) : m.noted t e = m.posts := by
  match e with
  | .call (.addBlock ..) => exact if_pos hbrk
  | .call (.toLongest _) | .call (.attachNow _) | .call (.pruneChain ..) | .call (.daemon ..) => rfl
  | .init _ | .daemon .. | .close | .drain .. | .finish => rfl

theorem Books.quiet (h : Books H m.chain m.posts) (hs : m.life.Sound) (hkeep : Keeps m.chain t)
    (hbrk : t.brk = m.chain.brk) (e : LifeEvent) : Books H t (m.noted t e) := by
  rw [noted_of_brk hbrk]
  exact h.keep hs.bounded hkeep

/-- **A call keeps the books**, also while the chain is being closed. -/
theorem Books.call (h : Books H m.chain m.posts) (hs : m.life.Sound) {c : Event}
    (hc : c.isCall = true) :
    Books H (perform H m.chain c).2 (m.noted (perform H m.chain c).2 (.call c)) := by
  by_cases hclosed : (!m.chain.isInitiated || m.chain.currentlyBlocked) = true
  · rcases perform_closed_cases (H := H) hclosed hc with heq | ⟨p, hp, heq⟩
    · rw [heq]
      exact h.quiet hs (.refl _) rfl _
    · rw [heq]
      exact h.quiet hs (keeps_flag m.chain p) rfl _
  · have hlinked := hs.linked_of_open hclosed
    cases c with
    | addBlock data length pick =>
      obtain ⟨f, -, heq⟩ := hlinked.addBlock_cases data length pick
      rw [perform, heq]
      split
      · apply h.quiet hs
        · exact .of_eq rfl le_rfl (fun _ _ h ↦ h) fun _ h ↦ h
        · rfl
      · have hmade : (m.chain.added data length (findFather m.chain pick)
            ((m.chain.heap f).depth + 1)).brk ≠ m.chain.brk := Nat.succ_ne_self _
        rw [Posted.noted, if_neg hmade]
        exact h.added hlinked ⟨data, length⟩ _ _
    | toLongest k => exact h.keep hs.bounded (hlinked.keeps hc (by simp))
    | attachNow k => exact h.keep hs.bounded (hlinked.keeps hc (by simp))
    | pruneChain pick pastEnd => exact h.keep hs.bounded (hlinked.keeps hc (by simp))
    | daemon pick seed => cases hc

/-- **The step lemma.** -/
theorem Books.step (h : Books H m.chain m.posts) (hs : m.life.Sound)
    (hst : m.step H e = some m') : Books H m'.chain m'.posts := by
  obtain ⟨l, hl, rfl⟩ := Option.map_eq_some_iff.mp hst
  cases hs.moves hl with
  | opened created hno => exact h.opened (hs.shut hno)
  | refused created b =>
    exact h.keep hs.bounded (.of_eq rfl le_rfl (fun _ _ h ↦ h) fun _ h ↦ h)
  | called c hc =>
    simpa only [Posted.chain, Lifecycle.called_chain] using h.call hs hc
  | idle pick seed hq => exact h
  | took p rest pick seed hinit hq => exact h.processed (hs.linked hinit) hq
  | closed =>
    refine h.keep hs.bounded ?_
    rw [closeChain]
    split
    · exact .of_eq rfl le_rfl (fun _ _ h ↦ h) fun _ h ↦ h
    · exact .refl _
  | drained p rest pick seed hinit hq =>
    have hbooks : Books H (m.chain.processed H p rest pick seed) m.posts :=
      h.processed (hs.linked hinit) hq
    exact ⟨hbooks.copied, hbooks.pending, hbooks.attached, hbooks.signed⟩
  | finished hq =>
    exact h.keep hs.bounded (.of_eq rfl le_rfl (fun k p hk ↦ by simp [resetChain] at hk)
      fun _ h ↦ h)

theorem books_fresh (H : HashLib) : Books H Posted.fresh.chain Posted.fresh.posts :=
  have hno : ∀ p, ¬Posted.fresh.chain.Attached p := fun p hp ↦ by
    simp [Posted.fresh, Lifecycle.fresh, Chain.fresh, Chain.Attached] at hp
  ⟨nofun, nofun, fun p hp ↦ absurd hp (hno p), fun p hp ↦ absurd hp (hno p)⟩

/-- What the books say about an attached block that is not the genesis block. -/
theorem Books.hashed (h : Books H m.chain m.posts) (hs : m.life.Sound) (hp : m.chain.Attached p)
    (hne : (m.chain.heap p).index ≠ 0) : Hashed H m p := by
  have hlinked := hs.linked (hs.initiated hp)
  have hnext : m.chain.next p ≠ none := fun hnone ↦ hne (hlinked.null p hp hnone)
  obtain ⟨q, hq⟩ := Option.ne_none_iff_exists'.mp hnext
  obtain ⟨x, hx⟩ := h.attached p hp hnext
  obtain ⟨-, hdata, hlen⟩ := h.copied p x hx
  obtain ⟨hfather, seed, hhash⟩ := h.signed p hp q hq
  rw [hdata, hlen] at hhash
  exact ⟨x, q, seed, hx, hq, hfather, hhash⟩

/-- **Hashes match the final father**: in every state of every run, every attached block but the
genesis block holds the hash of the bytes it was added with, for its own number and the number of
the block that it points to. -/
theorem always_hashed (H : HashLib) (es : List LifeEvent) :
    Run.Always (Posted.step H)
      (fun m ↦ ∀ p, m.chain.Attached p → (m.chain.heap p).index ≠ 0 → Hashed H m p)
      .fresh es := by
  have hinv : Run.Always (Posted.step H) (fun m ↦ m.life.Sound ∧ Books H m.chain m.posts)
      .fresh es := by
    refine Run.always_of_invariant ?_ ⟨Lifecycle.fresh_sound, books_fresh H⟩ es
    rintro m e m' ⟨hs, hbooks⟩ hst
    obtain ⟨l, hl, rfl⟩ := Option.map_eq_some_iff.mp hst
    exact ⟨hs.step hl, hbooks.step hs hst⟩
  exact hinv.imp fun m ⟨hs, hbooks⟩ p hp hne ↦ hbooks.hashed hs hp hne

/-- Three bytes, of which the first two are to be taken, attached where `to_longest` wants it. -/
example :
    (Run.exec (Posted.step plainHash) .fresh [.init true, .call (.addBlock (some [1, 2, 3]) 2 0),
        .call (.toLongest 1), .daemon 0 0]).map
      (fun m ↦ (m.chain.blockMap[(1 : ℤ)]?, m.chain.next 1, (m.posts 1).map Post.bytes)) =
      some (some 1, some 0, some (some [1, 2])) := by decide

end Blockchain
