import OsExercises.Blockchain.Linked

/-!
# The attached blocks form a tree with the right depths

`Linked` says that the attached blocks hang together.  Whether the depths recorded in them are the
distances to the genesis block is another matter: the depth of a block is fixed by `add_block`, and
the father it is attached to is looked up by number, so the number may have passed to another block
in the meantime.

* `Depths` is the local condition, between a block and its father, and `Linked.tree_iff` that it is
  what makes the attached blocks a `Tree`.
* `always_tree_iff` says in which runs they always are one: the daemon must not find a block of
  another depth under the number of the father.
-/

set_option autoImplicit false

namespace Blockchain

variable {s t : Chain} {p q g : BlockPtr} {k : ℤ} {H : HashLib} {pick seed : ℕ}

/-- The attached blocks form a tree with the genesis block as its root, and their depths are right.
-/
structure Tree (s : Chain) : Prop where
  /-- The genesis block. -/
  genesis : ∃ g, s.blockMap[(0 : ℤ)]? = some g ∧ s.next g = none ∧ (s.heap g).depth = 0
  /-- Every other block has an attached block as its father. -/
  father : ∀ (k : ℤ) (p : BlockPtr), s.blockMap[k]? = some p → k ≠ 0 →
    ∃ q, s.next p = some q ∧ s.Attached q ∧ (s.heap p).fatherIndex = (s.heap q).index ∧
      (s.heap p).depth = (s.heap q).depth + 1
  /-- The way to the genesis block has as many steps as the depth says. -/
  walk : ∀ (k : ℤ) (p : BlockPtr), s.blockMap[k]? = some p →
    ∃ l g, RootPath s.next p l ∧ l.getLast? = some g ∧ s.blockMap[(0 : ℤ)]? = some g ∧
      (l.length : ℤ) = (s.heap p).depth + 1

/-- The depths and father numbers of the attached blocks agree with their fathers. -/
structure Depths (s : Chain) : Prop where
  /-- The genesis block has depth zero. -/
  genesis : ∀ g, s.blockMap[(0 : ℤ)]? = some g → (s.heap g).depth = 0
  /-- A block is one deeper than its father. -/
  father : ∀ p q, s.Attached p → s.next p = some q →
    (s.heap p).fatherIndex = (s.heap q).index ∧ (s.heap p).depth = (s.heap q).depth + 1

/-- The root of every path is the genesis block. -/
theorem Linked.root_eq {l : List BlockPtr} (h : Linked s) (hl : RootPath s.next p l)
    (hall : ∀ q ∈ l, s.Attached q) (hr : l.getLast? = some q) : s.blockMap[(0 : ℤ)]? = some q := by
  obtain ⟨r, hr', hrn⟩ := hl.exists_getLast
  cases hr.symm.trans hr'
  have hq := hall q (List.mem_of_mem_getLast? hr)
  rwa [Chain.Attached, h.null q hq hrn] at hq

/-- **From the local condition to the tree.** -/
theorem Linked.tree_iff (h : Linked s) : Tree s ↔ Depths s := by
  obtain ⟨g, hg, hgn⟩ := h.genesis
  constructor
  · intro ht
    refine ⟨fun g' hg' ↦ ?_, fun p q hp hn ↦ ?_⟩
    · obtain ⟨g₀, hg₀, -, hd⟩ := ht.genesis
      cases hg'.symm.trans hg₀
      exact hd
    · have hk : (s.heap p).index ≠ 0 := fun h0 ↦ by
        rw [Chain.Attached, h0, hg] at hp
        cases hp
        simp [hgn] at hn
      obtain ⟨q', hq', -, hf, hd⟩ := ht.father _ p hp hk
      cases hn.symm.trans hq'
      exact ⟨hf, hd⟩
  · intro hd
    refine ⟨⟨g, hg, hgn, hd.genesis g hg⟩, fun k p hk hne ↦ ?_, fun k p hk ↦ ?_⟩
    · have hp := h.attached hk
      cases hn : s.next p with
      | none => exact absurd ((h.key k p hk).symm.trans (h.null p hp hn)) hne
      | some q => exact ⟨q, rfl, h.next_attached hp hn, hd.father p q hp hn⟩
    · obtain ⟨l, hl, hall⟩ := h.rooted p (h.attached hk)
      obtain ⟨r, hr, hrn⟩ := hl.exists_getLast
      refine ⟨l, r, hl, hr, h.root_eq hl hall hr, hl.length_eq (fun x hx hxn ↦ ?_)
        fun x y hx hxy ↦ (hd.father x y (hall x hx) hxy).2⟩
      have hx' := hall x hx
      rw [Chain.Attached, h.null x hx' hxn] at hx'
      exact hd.genesis x hx'

/-! ## Which steps keep the depths -/

/-- Detaching blocks, and changing marks of attached ones, does not matter. -/
theorem Depths.transfer (hd : Depths s) (h : Linked s)
    (hmap : ∀ (k : ℤ) (p : BlockPtr), t.blockMap[k]? = some p → s.blockMap[k]? = some p)
    (hheap : ∀ p, s.Attached p →
      t.heap p = { s.heap p with isInLongest := (t.heap p).isInLongest }) : Depths t := by
  refine ⟨fun g hg ↦ ?_, fun p q hp hn ↦ ?_⟩
  · have hg' := hmap 0 g hg
    rw [hheap g (h.attached hg')]
    exact hd.genesis g hg'
  · have hp' := h.attached (hmap _ p hp)
    rw [Chain.next, hheap p hp'] at hn
    rw [hheap p hp', hheap q (h.next_attached hp' hn)]
    exact hd.father p q hp' hn

/-- The daemon does not attach a block that `add_block` gave a father to a block of another depth
that has the father's number now. -/
def Fitting (s : Chain) : Event → Prop
  | .daemon _ _ => ∀ p rest q, s.blockQueue = p :: rest → (s.heap p).attachToLongest = false →
      s.blockMap[(s.heap p).fatherIndex]? = some q → (s.heap p).index ∉ s.blockMap →
      (s.heap p).depth = (s.heap q).depth + 1
  | _ => True

/-- **The block that the daemon attaches.**  Its depth is right if it was made for this father, or
for the longest chain. -/
theorem Depths.attached_iff {rest : List BlockPtr} (hd : Depths s) (h : Linked s)
    (hq : s.blockQueue = p :: rest) (hnew : (s.heap p).index ∉ s.blockMap)
    (hf : s.blockMap[s.fatherOf p pick]? = some q) :
    Depths (s.processed H p rest pick seed) ↔
      ((s.heap p).attachToLongest = false → (s.heap p).depth = (s.heap q).depth + 1) := by
  have hne : ∀ r, s.Attached r → r ≠ p := fun r hr ↦ h.ne_front hq hr
  have hqa : q ≠ p := hne q (h.attached hf)
  have hatt : s.Attaches p pick := ⟨mem_blockMap hf, hnew⟩
  have hnext : (s.processed H p rest pick seed).next p = some q := next_processed hf
  constructor
  · intro ht hflag
    have hpt : (s.processed H p rest pick seed).Attached p :=
      attached_processed_iff.mpr (.inr ⟨rfl, hatt⟩)
    have hdepth := (ht.father p q hpt hnext).2
    rwa [processed_heap_self, processed_heap_of_ne hqa, hashed_depth hf, hflag, if_neg (by simp)]
      at hdepth
  · intro hfit
    refine ⟨fun g hg ↦ ?_, fun r x hr hx ↦ ?_⟩
    · obtain ⟨g₀, hg₀, -⟩ := h.genesis
      have h0 : (s.heap p).index ≠ 0 := fun h0 ↦ hnew (h0 ▸ mem_blockMap hg₀)
      rw [getElem?_processed H seed rest hf, if_neg fun hk ↦ h0 hk.1] at hg
      rw [processed_heap_of_ne (hne g (h.attached hg))]
      exact hd.genesis g hg
    · rcases attached_processed_iff.mp hr with hr' | ⟨rfl, -⟩
      · have hrp := hne r hr'
        rw [Chain.next, processed_heap_of_ne hrp] at hx
        rw [processed_heap_of_ne hrp, processed_heap_of_ne (hne x (h.next_attached hr' hx))]
        exact hd.father r x hr' hx
      · rw [hnext, Option.some.injEq] at hx
        rw [← hx, processed_heap_self, processed_heap_of_ne hqa, hashed_depth hf]
        refine ⟨(h.key _ _ hf).symm, ?_⟩
        split
        · rfl
        · rename_i hflag
          exact hfit (by simpa using hflag)

/-- **The step lemma for the daemon.** -/
theorem Depths.processed_iff {rest : List BlockPtr} (hd : Depths s) (h : Linked s)
    (hq : s.blockQueue = p :: rest) :
    Depths (s.processed H p rest pick seed) ↔ Fitting s (.daemon pick seed) := by
  have hfit : Fitting s (.daemon pick seed) ↔ ∀ q, (s.heap p).attachToLongest = false →
      s.blockMap[(s.heap p).fatherIndex]? = some q → (s.heap p).index ∉ s.blockMap →
      (s.heap p).depth = (s.heap q).depth + 1 := by
    refine ⟨fun hf q ↦ hf p rest q hq, fun hf p' rest' q hq' ↦ ?_⟩
    cases hq.symm.trans hq'
    exact hf q
  rw [hfit]
  by_cases hatt : s.Attaches p pick
  · obtain ⟨q, hf⟩ := exists_of_mem_blockMap hatt.1
    rw [hd.attached_iff h hq hatt.2 hf]
    refine ⟨fun hdepth q' hflag hq' _ ↦ ?_, fun hdepth hflag ↦ ?_⟩
    · rw [fatherOf_of_not hflag, hq', Option.some.injEq] at hf
      rw [hf]
      exact hdepth hflag
    · rw [fatherOf_of_not hflag] at hf
      exact hdepth q hflag hf hatt.2
  · refine iff_of_true (hd.transfer h (fun k r hr ↦ ?_) fun r hr ↦ ?_) fun q hflag hq' hnew ↦ ?_
    · rwa [getElem?_processed_of_not hatt] at hr
    · rw [processed_heap_of_ne (h.ne_front hq hr)]
    · exact absurd ⟨fatherOf_of_not hflag ▸ mem_blockMap hq', hnew⟩ hatt

/-- **The step lemma.** -/
theorem Depths.perform_iff (hd : Depths s) (h : Linked s) (e : Event) :
    Depths (perform H s e).2 ↔ Fitting s e := by
  cases e with
  | addBlock data length pick =>
    refine iff_of_true ?_ trivial
    obtain ⟨p, -, heq⟩ := h.addBlock_cases data length pick
    rw [perform, heq]
    split
    · exact ⟨hd.genesis, hd.father⟩
    · exact hd.transfer h (fun _ _ hr ↦ hr) fun r hr ↦ by
        rw [added_heap_of_lt _ _ _ _ (h.lt_brk r hr)]
  | toLongest k =>
    refine iff_of_true ?_ trivial
    rw [perform]
    rcases toLongest_cases s k with heq | ⟨p, hp, heq⟩
    · rwa [heq]
    · rw [heq]
      refine hd.transfer h (fun _ _ hr ↦ hr) fun r hr ↦ ?_
      have hrp : r ≠ p := by
        rintro rfl
        exact (h.pending r hp).1 hr
      simp [Chain.modify, hrp]
  | attachNow k =>
    refine iff_of_true ?_ trivial
    obtain ⟨q, -, heq⟩ := attachNow_cases s k
    rw [perform, heq]
    exact ⟨hd.genesis, hd.father⟩
  | pruneChain pick pastEnd =>
    refine iff_of_true ?_ trivial
    obtain ⟨p, l, -, hl, hall, heq⟩ := h.pruneChain_cases pick pastEnd
    have hm : Depths (s.mark true l) :=
      hd.transfer h (fun _ _ hr ↦ hr) fun r _ ↦ by rw [mark_heap]
    rw [perform, heq]
    split
    · exact hm.transfer (h.mark_path hl hall) (fun _ _ hr ↦ (getElem?_pruned.mp hr).1)
        fun r _ ↦ pruned_heap_eq _ _ r
    · exact ⟨hm.genesis, hm.father⟩
  | daemon pick seed =>
    rw [perform]
    cases hq : s.blockQueue with
    | nil =>
      rw [daemonFunction_nil hq]
      exact iff_of_true hd fun p rest q hq' ↦ by rw [hq] at hq'; cases hq'
    | cons p rest =>
      rw [h.daemonFunction_eq hq]
      exact hd.processed_iff h hq

/-! ## Runs -/

theorem initBlockchain_depths (h : initBlockchain Chain.fresh true = (.ret success, s)) :
    Depths s := by
  have hheap : ∀ p, s.heap p = Block.new none 0 (-1) 0 0 := fun p ↦ by
    rw [← (Prod.mk.inj h).2]
    exact congrFun (Function.update_eq_self 0 Chain.fresh.heap) p
  refine ⟨fun g _ ↦ by rw [hheap]; rfl, fun p q _ hn ↦ ?_⟩
  rw [Chain.next, hheap] at hn
  cases hn

/-- **The attached blocks form a tree with the right depths in exactly the runs in which the daemon
finds no block of another depth under the number of a father.** -/
theorem always_tree_iff {s₀ : Chain} {es : List Event}
    (h0 : initBlockchain Chain.fresh true = (.ret success, s₀)) :
    Run.Always (step H) Tree s₀ es ↔ Run.Meets (step H) Fitting s₀ es := by
  refine Run.always_iff_meets (I := fun s ↦ Linked s ∧ Depths s) (fun s e t hs hfit hst ↦ ?_)
    (fun s hs ↦ hs.1.tree_iff.mpr hs.2) (fun s e t hs hst ht ↦ ?_)
    ⟨initBlockchain_linked h0, initBlockchain_depths h0⟩
  · have hlinked := linked_step hs.1 hst
    rw [hs.1.step_eq] at hst
    cases hst
    exact ⟨hlinked, (hs.2.perform_iff hs.1 e).mpr hfit⟩
  · have hlinked := linked_step hs.1 hst
    rw [hs.1.step_eq] at hst
    cases hst
    exact (hs.2.perform_iff hs.1 e).mp (hlinked.tree_iff.mp ht)

/-- The daemon takes block 3, too. -/
def reuseTakenEvents : List Event := reuseEvents ++ [.daemon 0 0]

/-- In the end block 3 has depth 2, and so has its father, which is the new block 1. -/
theorem exec_reuseTakenEvents :
    ∃ s, Run.exec (step plainHash) (initBlockchain Chain.fresh true).2 reuseTakenEvents = some s ∧
      (s.blockMap[(3 : ℤ)]?, s.next 3, (s.heap 3).depth, (s.heap 4).depth) =
        (some 3, some 4, 2, 2) := by
  rw [← Option.map_eq_some_iff]
  decide

theorem not_tree_of_depths {d : ℤ} (h : (s.blockMap[k]?, s.next p, (s.heap p).depth,
    (s.heap q).depth) = (some p, some q, d, d)) (hk : k ≠ 0) : ¬Tree s := fun ht ↦ by
  simp only [Prod.mk.injEq] at h
  obtain ⟨hp, hn, hd, hd'⟩ := h
  obtain ⟨q', hq', -, -, hdepth⟩ := ht.father k p hp hk
  cases hn.symm.trans hq'
  omega

/-- The attached blocks need not form a tree with the right depths. -/
theorem exists_not_tree :
    ∃ s₀ s, initBlockchain Chain.fresh true = (.ret success, s₀) ∧
      Run.exec (step plainHash) s₀ reuseTakenEvents = some s ∧ ¬Tree s := by
  obtain ⟨s, hs, h⟩ := exec_reuseTakenEvents
  exact ⟨_, s, rfl, hs, not_tree_of_depths h (by decide)⟩

theorem always_tree_iff_sample :
    ¬Run.Meets (step plainHash) Fitting (initBlockchain Chain.fresh true).2 reuseTakenEvents := by
  intro hmeets
  obtain ⟨s, hs, h⟩ := exec_reuseTakenEvents
  have htree := ((always_tree_iff rfl).mpr hmeets).of_exec hs
  exact not_tree_of_depths h (by decide) htree

end Blockchain
