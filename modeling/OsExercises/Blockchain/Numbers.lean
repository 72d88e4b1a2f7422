import OsExercises.Blockchain.Linked

/-!
# Block numbers

`vecIndex` lists the numbers in use.  `add_block` and `prune_chain` keep it; the daemon does not, so
the number of a block that it deletes stays in the list.  And `prune_chain` sweeps the list by
looking every number up among the attached blocks, up to an element that equals what lies past the
end of the list.

* `Covered` says that no number is missing from the list, and `Book` that none is there without a
  block.
* `SweepSafe` is when the sweep runs to its end, and `SweepExact` when it drops the numbers of just
  the blocks that go.
* `pruneChain_good_iff` and `always_book_iff` say in which runs pruning is safe and the list is
  right.
-/

set_option autoImplicit false

namespace Blockchain

variable {s t : Chain} {p q g : BlockPtr} {k v : ℤ} {H : HashLib} {pick seed : ℕ} {pastEnd : ℤ}
variable {mark : ℤ → Option Bool} {l : List ℤ} {l' : List BlockPtr}

/-! ## The sweep -/

/-- The sweep over `vecIndex` runs to its end: it stops before it meets a number that is not
attached.  Once it has dropped a number it stops at the last one. -/
def SweepSafe (mark : ℤ → Option Bool) (pastEnd : ℤ) : List ℤ → Prop
  | [] => True
  | v :: rest => v = pastEnd ∨
    match mark v with
    | none => False
    | some true => SweepSafe mark pastEnd rest
    | some false => ∀ u ∈ rest.dropLast, mark u ≠ none

/-- The sweep drops the numbers of all blocks that go and runs to its end, or drops none and is
left by an exception. -/
def SweepExact (mark : ℤ → Option Bool) (pastEnd : ℤ) : List ℤ → Prop
  | [] => True
  | v :: rest =>
    if v = pastEnd then ∀ u ∈ v :: rest, mark u ≠ some false
    else
      match mark v with
      | none => True
      | some true => SweepExact mark pastEnd rest
      | some false => (∀ u ∈ rest.dropLast, mark u ≠ none) ∧
          ∀ u, rest.getLast? = some u → mark u ≠ some false

/-- The sweep keeps the order, and it drops only numbers of unmarked blocks. -/
theorem sweepIndex_sublist (mark : ℤ → Option Bool) (pastEnd : ℤ) (l : List ℤ) :
    (sweepIndex mark pastEnd l).2.Sublist l ∧
      ∀ v ∈ l, v ∈ (sweepIndex mark pastEnd l).2 ∨ mark v = some false := by
  induction l generalizing pastEnd with
  | nil => exact ⟨.refl _, by simp⟩
  | cons v rest ih =>
    rw [sweepIndex]
    split
    · exact ⟨.refl _, fun u hu ↦ .inl hu⟩
    split
    · exact ⟨.refl _, fun u hu ↦ .inl hu⟩
    · rename_i hv
      obtain ⟨h1, h2⟩ := ih ((v :: rest).getLast (by simp))
      refine ⟨h1.cons v, fun u hu ↦ ?_⟩
      rcases List.mem_cons.mp hu with rfl | hu
      · exact .inr hv
      · exact h2 u hu
    · obtain ⟨h1, h2⟩ := ih pastEnd
      refine ⟨h1.cons_cons v, fun u hu ↦ ?_⟩
      rcases List.mem_cons.mp hu with rfl | hu
      · exact .inl List.mem_cons_self
      · exact (h2 u hu).imp_left (List.mem_cons_of_mem _)

/-- After it has dropped a number, the sweep goes up to the last one, whatever that is. -/
theorem sweepIndex_last (mark : ℤ → Option Bool) {init : List ℤ} {z : ℤ} (hz : z ∉ init) :
    ((sweepIndex mark z (init ++ [z])).1 = true ↔ ∀ u ∈ init, mark u ≠ none) ∧
      ((sweepIndex mark z (init ++ [z])).1 = true →
        (sweepIndex mark z (init ++ [z])).2 = init.filter (mark · ≠ some false) ++ [z]) := by
  induction init with
  | nil => simp [sweepIndex]
  | cons v init ih =>
    obtain ⟨hvz, hz'⟩ := List.ne_and_not_mem_of_not_mem_cons hz
    obtain ⟨h1, h2⟩ := ih hz'
    rw [List.cons_append, sweepIndex, if_neg (Ne.symm hvz)]
    cases hv : mark v with
    | none => simp [hv]
    | some b =>
      cases b with
      | false =>
        have hlast : (v :: (init ++ [z])).getLast (by simp) = z := by simp
        simp only [hlast]
        rw [h1]
        refine ⟨by simp [hv], fun hall ↦ ?_⟩
        rw [h2 (h1.mpr hall)]
        simp [hv]
      | true =>
        simp only
        rw [h1]
        refine ⟨by simp [hv], fun hall ↦ ?_⟩
        rw [h2 (h1.mpr hall)]
        simp [hv]

/-- **When the sweep runs to its end.** -/
theorem sweepIndex_done_iff (hl : l.Nodup) :
    (sweepIndex mark pastEnd l).1 = true ↔ SweepSafe mark pastEnd l := by
  induction l with
  | nil => simp [sweepIndex, SweepSafe]
  | cons v rest ih =>
    obtain ⟨hv, hrest⟩ := List.nodup_cons.mp hl
    rw [sweepIndex, SweepSafe]
    by_cases hend : v = pastEnd
    · simp [hend]
    rw [if_neg hend]
    simp only [hend, false_or]
    cases hm : mark v with
    | none => simp
    | some b =>
      cases b with
      | true => exact ih hrest
      | false =>
        rcases List.eq_nil_or_concat' rest with rfl | ⟨init, z, rfl⟩
        · simp [sweepIndex]
        · have hz : z ∉ init := fun hz ↦ (List.nodup_append.mp hrest).2.2 z hz z (by simp) rfl
          have hlast : (v :: (init ++ [z])).getLast (by simp) = z := by simp
          simp only [hlast, (sweepIndex_last mark hz).1, List.dropLast_concat]

/-- **When the sweep drops the right numbers.**  When it runs to its end, no number of a block that
goes must be left; when it does not, nothing must be dropped. -/
theorem sweepExact_iff (hl : l.Nodup) : SweepExact mark pastEnd l ↔
    if (sweepIndex mark pastEnd l).1 then ∀ u ∈ (sweepIndex mark pastEnd l).2, mark u ≠ some false
    else (sweepIndex mark pastEnd l).2 = l := by
  induction l with
  | nil => simp [sweepIndex, SweepExact]
  | cons v rest ih =>
    obtain ⟨hv, hrest⟩ := List.nodup_cons.mp hl
    rw [sweepIndex, SweepExact]
    by_cases hend : v = pastEnd
    · simp [hend]
    rw [if_neg hend, if_neg hend]
    cases hm : mark v with
    | none => simp
    | some b =>
      cases b with
      | true =>
        simp only [ih hrest]
        cases hdone : (sweepIndex mark pastEnd rest).1 <;> simp [hm]
      | false =>
        rcases List.eq_nil_or_concat' rest with rfl | ⟨init, z, rfl⟩
        · simp [sweepIndex]
        · have hz : z ∉ init := fun hz ↦ (List.nodup_append.mp hrest).2.2 z hz z (by simp) rfl
          have hlast : (v :: (init ++ [z])).getLast (by simp) = z := by simp
          obtain ⟨h1, h2⟩ := sweepIndex_last mark hz
          simp only [hlast, List.dropLast_concat, List.getLast?_concat, Option.some.injEq,
            forall_eq']
          cases hdone : (sweepIndex mark z (init ++ [z])).1 with
          | true =>
            rw [h2 hdone, if_pos rfl]
            have hall := h1.mp hdone
            constructor
            · rintro ⟨-, hmz⟩ u hu
              rcases List.mem_append.mp hu with hu | hu
              · exact of_decide_eq_true (List.mem_filter.mp hu).2
              · rwa [List.mem_singleton.mp hu]
            · exact fun hu ↦ ⟨hall, hu z (by simp)⟩
          | false =>
            rw [if_neg (by simp)]
            refine iff_of_false (fun hall ↦ ?_) fun heq ↦ ?_
            · simp [h1.mpr hall.1] at hdone
            · have hle := (sweepIndex_sublist mark z (init ++ [z])).1.length_le
              rw [heq, List.length_cons] at hle
              omega

/-! ## The list of numbers -/

/-- Every block has its own number, and `vecIndex` has it once. -/
structure Covered (s : Chain) : Prop where
  /-- A number is listed once. -/
  nodup : s.vecIndex.Nodup
  /-- Numbers are not negative. -/
  nonneg : ∀ v ∈ s.vecIndex, 0 ≤ v
  /-- The number of an attached block is listed. -/
  attached : ∀ v ∈ s.blockMap, v ∈ s.vecIndex
  /-- The number of a pending block is listed and is not the number of an attached block. -/
  pending : ∀ p ∈ s.blockQueue, (s.heap p).index ∈ s.vecIndex ∧ (s.heap p).index ∉ s.blockMap
  /-- Two pending blocks have different numbers. -/
  distinct : ∀ p ∈ s.blockQueue, ∀ q ∈ s.blockQueue, (s.heap p).index = (s.heap q).index → p = q

/-- The numbers are in order. -/
structure Book (s : Chain) : Prop where
  /-- A number is listed once. -/
  nodup : s.vecIndex.Nodup
  /-- The numbers listed are those of the attached and of the pending blocks. -/
  mem_iff : ∀ v, v ∈ s.vecIndex ↔ v ∈ s.blockMap ∨ s.Pending v
  /-- No number is one of an attached and of a pending block, so inserting a pending block into
  `blockMap` meets no block there. -/
  disjoint : ∀ v ∈ s.blockMap, ¬s.Pending v
  /-- Two pending blocks have different numbers. -/
  distinct : ∀ p ∈ s.blockQueue, ∀ q ∈ s.blockQueue, (s.heap p).index = (s.heap q).index → p = q
  /-- What `add_block` gives out next is the least positive number that no block has. -/
  lowest : IsLeast {v | 0 < v ∧ v ∉ s.blockMap ∧ ¬s.Pending v} s.minIdx

theorem Covered.isLeast_minIdx (hc : Covered s) : IsLeast {v | 0 ≤ v ∧ v ∉ s.vecIndex} s.minIdx :=
  s.isLeast_minIdx hc.nodup hc.nonneg

/-- The numbers are in order when none is missing and none is listed without a block. -/
theorem Linked.book_iff (h : Linked s) :
    Book s ↔ Covered s ∧ ∀ v ∈ s.vecIndex, v ∈ s.blockMap ∨ s.Pending v := by
  obtain ⟨g, hg, -⟩ := h.genesis
  constructor
  · intro hb
    refine ⟨⟨hb.nodup, fun v hv ↦ ?_, fun v hv ↦ (hb.mem_iff v).mpr (.inl hv),
      fun p hp ↦ ⟨(hb.mem_iff _).mpr (.inr ⟨p, hp, rfl⟩), fun hv ↦ hb.disjoint _ hv ⟨p, hp, rfl⟩⟩,
      hb.distinct⟩, fun v hv ↦ (hb.mem_iff v).mp hv⟩
    rcases (hb.mem_iff v).mp hv with hv | ⟨p, hp, rfl⟩
    · obtain ⟨p, hp⟩ := exists_of_mem_blockMap hv
      exact h.key v p hp ▸ h.nonneg p (h.attached hp)
    · exact (h.pending p hp).2.2.2
  · rintro ⟨hc, hexact⟩
    have hmem : ∀ v, v ∈ s.vecIndex ↔ v ∈ s.blockMap ∨ s.Pending v := fun v ↦ by
      refine ⟨hexact v, ?_⟩
      rintro (hv | ⟨p, hp, rfl⟩)
      · exact hc.attached v hv
      · exact (hc.pending p hp).1
    refine ⟨hc.nodup, hmem, ?_, hc.distinct, ?_⟩
    · rintro v hv ⟨p, hp, rfl⟩
      exact (hc.pending p hp).2 hv
    · have hset : {v | 0 < v ∧ v ∉ s.blockMap ∧ ¬s.Pending v} = {v | 0 ≤ v ∧ v ∉ s.vecIndex} := by
        ext v
        simp only [Set.mem_ofPred_eq, hmem, not_or]
        refine and_congr_left fun hv ↦ ⟨le_of_lt, fun hle ↦ lt_of_le_of_ne hle ?_⟩
        rintro rfl
        exact hv.1 (mem_blockMap hg)
      rw [hset]
      exact hc.isLeast_minIdx

/-! ## Adding, attaching, and reordering -/

/-- What does not touch the list of numbers and the attached blocks keeps the numbers covered. -/
theorem Covered.of_perm (hc : Covered s) (hv : t.vecIndex.Perm s.vecIndex)
    (hm : t.blockMap = s.blockMap) (hq : t.blockQueue.Perm s.blockQueue)
    (hidx : ∀ p ∈ s.blockQueue, (t.heap p).index = (s.heap p).index) : Covered t := by
  have hmem : ∀ p, p ∈ t.blockQueue ↔ p ∈ s.blockQueue := fun p ↦ hq.mem_iff
  refine ⟨hv.nodup_iff.mpr hc.nodup, fun v hv' ↦ hc.nonneg v (hv.mem_iff.mp hv'), fun v hv' ↦ ?_,
    fun p hp ↦ ?_, fun p hp q hq' heq ↦ ?_⟩
  · rw [hm] at hv'
    exact hv.mem_iff.mpr (hc.attached v hv')
  · have hp' := (hmem p).mp hp
    rw [hidx p hp', hv.mem_iff, hm]
    exact hc.pending p hp'
  · have hp' := (hmem p).mp hp
    have hq' := (hmem q).mp hq'
    rw [hidx p hp', hidx q hq'] at heq
    exact hc.distinct p hp' q hq' heq

/-- A new block gets a number of its own. -/
theorem Covered.added {data : Option (List UInt8)} {length f d : ℤ} (hc : Covered s)
    (h : Linked s) : Covered (s.added data length f d) := by
  obtain ⟨⟨-, hnew⟩, -⟩ := hc.isLeast_minIdx
  have hold : ∀ p ∈ s.blockQueue, (s.added data length f d).heap p = s.heap p := fun p hp ↦
    added_heap_of_lt _ _ _ _ (h.pending p hp).2.1
  refine ⟨nodup_vecIndex_added hc.nodup hc.nonneg,
    fun v ↦ nonneg_of_mem_added hc.nonneg,
    fun v hv ↦ mem_vecIndex_added.mpr (.inl (hc.attached v hv)), fun p hp ↦ ?_,
    fun p hp q hq heq ↦ ?_⟩
  · rcases mem_blockQueue_added.mp hp with hp | rfl
    · rw [hold p hp, mem_vecIndex_added]
      exact ⟨.inl (hc.pending p hp).1, (hc.pending p hp).2⟩
    · rw [index_added_self, mem_vecIndex_added]
      exact ⟨.inr rfl, fun hmem ↦ hnew (hc.attached _ hmem)⟩
  · rcases mem_blockQueue_added.mp hp with hp | rfl
    · rcases mem_blockQueue_added.mp hq with hq | rfl
      · rw [hold p hp, hold q hq] at heq
        exact hc.distinct p hp q hq heq
      · rw [hold p hp, index_added_self] at heq
        exact absurd (heq ▸ (hc.pending p hp).1) hnew
    · rcases mem_blockQueue_added.mp hq with hq | rfl
      · rw [hold q hq, index_added_self] at heq
        exact absurd (heq ▸ (hc.pending q hq).1) hnew
      · rfl

/-- The block the daemon takes was pending, and is attached or gone. -/
theorem Covered.processed {rest : List BlockPtr} (hc : Covered s) (h : Linked s)
    (hq : s.blockQueue = p :: rest) : Covered (s.processed H p rest pick seed) := by
  have hp : p ∈ s.blockQueue := by rw [hq]; exact List.mem_cons_self
  have hrest : ∀ r ∈ rest, r ∈ s.blockQueue ∧ r ≠ p := fun r hr ↦ h.mem_rest hq hr
  refine ⟨hc.nodup, hc.nonneg, fun v hv ↦ ?_, fun r hr ↦ ?_, fun r hr x hx heq ↦ ?_⟩
  · rcases mem_processed_iff.mp hv with hv | ⟨rfl, -⟩
    · exact hc.attached v hv
    · exact (hc.pending p hp).1
  · obtain ⟨hr', hrp⟩ := hrest r hr
    rw [processed_heap_of_ne hrp, mem_processed_iff, not_or]
    refine ⟨(hc.pending r hr').1, (hc.pending r hr').2, fun ⟨heq, _⟩ ↦ ?_⟩
    exact hrp (hc.distinct r hr' p hp heq)
  · obtain ⟨hr', hrp⟩ := hrest r hr
    obtain ⟨hx', hxp⟩ := hrest x hx
    rw [processed_heap_of_ne hrp, processed_heap_of_ne hxp] at heq
    exact hc.distinct r hr' x hx' heq

/-! ## Pruning -/

theorem isInLongestAt_eq_none : isInLongestAt s v = none ↔ v ∉ s.blockMap := by
  rw [isInLongestAt, Option.map_eq_none_iff, Std.TreeMap.mem_iff_isSome_getElem?]
  simp

theorem isInLongestAt_mark_eq_none (hv : v ∉ s.blockMap) (b : Bool) (l : List BlockPtr) :
    isInLongestAt (s.mark b l) v = none := isInLongestAt_eq_none.mpr hv

theorem isInLongestAt_of_getElem? (hp : s.blockMap[v]? = some p) :
    isInLongestAt s v = some (s.heap p).isInLongest := by rw [isInLongestAt, hp, Option.map_some]

/-- The numbers of the blocks that are left. -/
theorem mem_pruned_iff : v ∈ (s.pruned l).blockMap ↔ isInLongestAt s v = some true := by
  constructor
  · intro hv
    obtain ⟨p, hp⟩ := exists_of_mem_blockMap hv
    obtain ⟨h1, h2⟩ := getElem?_pruned.mp hp
    rw [isInLongestAt_of_getElem? h1, h2]
  · intro hv
    obtain ⟨p, hp, hm⟩ := Option.map_eq_some_iff.mp hv
    exact mem_blockMap (getElem?_pruned.mpr ⟨hp, hm⟩)

/-- The sweep of `prune_chain` over `vecIndex`, with the marks of the chosen path set, runs to its
end. -/
def PruneSafe (s : Chain) (pick : ℕ) (pastEnd : ℤ) : Prop :=
  ∀ p l, s.blockMap[findFather s pick]? = some p → RootPath s.next p l →
    SweepSafe (isInLongestAt (s.mark true l)) pastEnd s.vecIndex

/-- `prune_chain`'s sweep over `vecIndex`, with the marks of the chosen path set, drops the right
numbers. -/
def PruneExact (s : Chain) (pick : ℕ) (pastEnd : ℤ) : Prop :=
  ∀ p l, s.blockMap[findFather s pick]? = some p → RootPath s.next p l →
    SweepExact (isInLongestAt (s.mark true l)) pastEnd s.vecIndex

/-- There is just one path from the chosen block. -/
theorem forall_path_iff {P : List BlockPtr → Prop} (hp : s.blockMap[k]? = some p)
    (hl : RootPath s.next p l') :
    (∀ q l, s.blockMap[k]? = some q → RootPath s.next q l → P l) ↔ P l' := by
  refine ⟨fun h ↦ h p l' hp hl, fun h q l hq hl' ↦ ?_⟩
  cases hp.symm.trans hq
  rwa [hl'.unique hl]

/-- `prune_chain` runs to its end, and every pending block is still pending, with its number in use.
-/
structure PruneGood (s : Chain) (pick : ℕ) (pastEnd : ℤ) : Prop where
  /-- No exception leaves the call. -/
  returns : (pruneChain s pick pastEnd).1 = .ret success
  /-- The pending blocks. -/
  pending : ∀ p ∈ s.blockQueue, p ∈ (pruneChain s pick pastEnd).2.blockQueue ∧
    ((pruneChain s pick pastEnd).2.heap p).index = (s.heap p).index ∧
    (s.heap p).index ∈ (pruneChain s pick pastEnd).2.vecIndex

/-- The state `prune_chain` leaves has the numbers that the sweep has left, and the pending blocks
there were. -/
theorem prune_keeps (s : Chain) (l : List BlockPtr) (v : List ℤ) (p : BlockPtr) :
    (((s.mark true l).pruned v).heap p).index = (s.heap p).index := by
  rw [pruned_heap_eq, mark_heap]

/-- **When pruning is safe**, as long as no number is missing from the list. -/
theorem Covered.pruneGood_iff (hc : Covered s) (h : Linked s) :
    PruneGood s pick pastEnd ↔ PruneSafe s pick pastEnd := by
  obtain ⟨p, l, hp, hl, hall, heq⟩ := h.pruneChain_cases pick pastEnd
  have hsub := sweepIndex_sublist (isInLongestAt (s.mark true l)) pastEnd s.vecIndex
  rw [PruneSafe, forall_path_iff hp hl, ← sweepIndex_done_iff hc.nodup]
  cases hdone : (sweepIndex (isInLongestAt (s.mark true l)) pastEnd s.vecIndex).1 with
  | false =>
    rw [hdone, if_neg (by simp)] at heq
    refine iff_of_false (fun hg ↦ ?_) (by simp)
    have hret := hg.returns
    simp [heq] at hret
  | true =>
    rw [hdone, if_pos rfl] at heq
    refine iff_of_true ⟨by rw [heq], fun q hq ↦ ?_⟩ rfl
    rw [heq]
    refine ⟨hq, prune_keeps s l _ q, (hsub.2 _ (hc.pending q hq).1).resolve_right fun hm ↦ ?_⟩
    rw [isInLongestAt_mark_eq_none (hc.pending q hq).2] at hm
    cases hm

/-- Pruning keeps the numbers covered when it runs to its end. -/
theorem Covered.pruneChain (hc : Covered s) (h : Linked s) (hsafe : PruneSafe s pick pastEnd) :
    Covered (pruneChain s pick pastEnd).2 := by
  obtain ⟨p, l, hp, hl, hall, heq⟩ := h.pruneChain_cases pick pastEnd
  obtain ⟨hsub, hkeep⟩ := sweepIndex_sublist (isInLongestAt (s.mark true l)) pastEnd s.vecIndex
  have hdone := (sweepIndex_done_iff hc.nodup).mpr (hsafe p l hp hl)
  rw [heq, hdone, if_pos rfl]
  refine ⟨hsub.nodup hc.nodup, fun v hv ↦ hc.nonneg v (hsub.subset hv), fun v hv ↦ ?_,
    fun q hq ↦ ?_, fun q hq r hr hqr ↦ ?_⟩
  · have hm := mem_pruned_iff.mp hv
    have hatt : v ∈ s.blockMap := by
      by_contra hno
      rw [isInLongestAt_mark_eq_none hno] at hm
      cases hm
    exact (hkeep v (hc.attached v hatt)).resolve_right fun hm' ↦ by simp [hm] at hm'
  · have hno := isInLongestAt_mark_eq_none (hc.pending q hq).2 true l
    rw [prune_keeps, mem_pruned_iff, hno]
    refine ⟨(hkeep _ (hc.pending q hq).1).resolve_right fun hm ↦ ?_, by simp⟩
    rw [hno] at hm
    cases hm
  · rw [prune_keeps, prune_keeps] at hqr
    exact hc.distinct q hq r hr hqr

/-! ## Runs in which pruning is safe -/

/-- If the event is a prune, its sweep runs to its end. -/
def Safe (s : Chain) : Event → Prop
  | .pruneChain pick pastEnd => PruneSafe s pick pastEnd
  | _ => True

/-- **The step lemma.** -/
theorem Covered.perform {e : Event} (hc : Covered s) (h : Linked s) (hsafe : Safe s e) :
    Covered (perform H s e).2 := by
  cases e with
  | addBlock data length pick =>
    obtain ⟨p, -, heq⟩ := h.addBlock_cases data length pick
    rw [Blockchain.perform, heq]
    split
    · exact hc.of_perm (List.perm_insertionSort _ _) rfl (.refl _) fun _ _ ↦ rfl
    · exact hc.added h
  | toLongest k =>
    rw [Blockchain.perform]
    rcases toLongest_cases s k with heq | ⟨p, hp, heq⟩
    · rwa [heq]
    · rw [heq]
      refine hc.of_perm (.refl _) rfl (.refl _) fun q _ ↦ ?_
      by_cases hq : q = p
      · subst hq
        simp [Chain.modify]
      · simp [Chain.modify, hq]
  | attachNow k =>
    obtain ⟨q, hq, heq⟩ := attachNow_cases s k
    rw [Blockchain.perform, heq]
    exact hc.of_perm (.refl _) rfl hq fun _ _ ↦ rfl
  | pruneChain pick pastEnd => exact hc.pruneChain h hsafe
  | daemon pick seed =>
    rw [Blockchain.perform]
    cases hq : s.blockQueue with
    | nil => rwa [daemonFunction_nil hq]
    | cons p rest =>
      rw [h.daemonFunction_eq hq]
      exact hc.processed h hq

theorem initBlockchain_book (h : initBlockchain Chain.fresh true = (.ret success, s)) : Book s := by
  have hlinked := initBlockchain_linked h
  have hs : s.vecIndex = [0] ∧ s.blockQueue = [] ∧
      s.blockMap = (∅ : Std.TreeMap ℤ BlockPtr).insertIfNew 0 0 := by
    rw [← (Prod.mk.inj h).2]
    exact ⟨rfl, rfl, rfl⟩
  obtain ⟨hv, hq, hm⟩ := hs
  have hmem : ∀ v, v ∈ s.blockMap ↔ v = 0 := fun v ↦ by
    rw [hm, Std.TreeMap.mem_insertIfNew, Std.compare_eq_iff_eq, eq_comm]
    simp
  rw [hlinked.book_iff, hv]
  refine ⟨⟨by simp [hv], by simp [hv], fun v hv' ↦ ?_, by simp [hq], by simp [hq]⟩, fun v hv' ↦ ?_⟩
  · rw [hv, (hmem v).mp hv']
    exact List.mem_cons_self
  · exact .inl ((hmem v).mpr (List.mem_singleton.mp hv'))

theorem initBlockchain_covered (h : initBlockchain Chain.fresh true = (.ret success, s)) :
    Covered s := ((initBlockchain_linked h).book_iff.mp (initBlockchain_book h)).1

/-- **The run lemma.** -/
theorem exec_covered {s₀ : Chain} {es : List Event}
    (h0 : initBlockchain Chain.fresh true = (.ret success, s₀))
    (hes : Run.Meets (step H) Safe s₀ es) (h : Run.exec (step H) s₀ es = some s) :
    Linked s ∧ Covered s := by
  refine Run.meets_induction (I := fun s ↦ Linked s ∧ Covered s) (fun s e t hs hsafe hst ↦ ?_)
    ⟨initBlockchain_linked h0, initBlockchain_covered h0⟩ hes h
  have hlinked := linked_step hs.1 hst
  rw [hs.1.step_eq] at hst
  cases hst
  exact ⟨hlinked, hs.2.perform hs.1 hsafe⟩

/-- **Pruning is safe exactly when the sweep over the numbers runs to its end**, in every state of
every run in which it always did so far. -/
theorem pruneChain_good_iff {s₀ : Chain} {es : List Event}
    (h0 : initBlockchain Chain.fresh true = (.ret success, s₀))
    (hes : Run.Meets (step H) Safe s₀ es) (h : Run.exec (step H) s₀ es = some s)
    (pick : ℕ) (pastEnd : ℤ) : PruneGood s pick pastEnd ↔ PruneSafe s pick pastEnd := by
  obtain ⟨hlinked, hcovered⟩ := exec_covered h0 hes h
  exact hcovered.pruneGood_iff hlinked

/-- One block was added, and the daemon has not taken it yet. -/
def pendingEvents : List Event := [.addBlock none 0 0]

theorem exec_pendingEvents :
    ∃ s, Run.exec (step plainHash) (initBlockchain Chain.fresh true).2 pendingEvents = some s ∧
      (pruneChain s 0 (-1)).1 = .outOfRange := by
  rw [← Option.map_eq_some_iff]
  decide

/-- Pruning while a block is pending is left by an exception. -/
theorem exists_not_pruneGood :
    ∃ s₀ s, initBlockchain Chain.fresh true = (.ret success, s₀) ∧
      Run.exec (step plainHash) s₀ pendingEvents = some s ∧ ¬PruneGood s 0 (-1) := by
  obtain ⟨s, hs, hx⟩ := exec_pendingEvents
  refine ⟨_, s, rfl, hs, fun hg ↦ ?_⟩
  have hret := hg.returns
  simp [hx] at hret

theorem pruneChain_good_iff_sample :
    ∃ s, Run.exec (step plainHash) (initBlockchain Chain.fresh true).2 pendingEvents = some s ∧
      ¬PruneSafe s 0 (-1) := by
  have hmeets : Run.Meets (step plainHash) Safe (initBlockchain Chain.fresh true).2 pendingEvents :=
    fun _ _ ↦ ⟨trivial, trivial⟩
  obtain ⟨s, hs, hx⟩ := exec_pendingEvents
  refine ⟨s, hs, fun hsafe ↦ ?_⟩
  have hret := ((pruneChain_good_iff rfl hmeets hs 0 (-1)).mpr hsafe).returns
  simp [hx] at hret

/-! ## Runs in which the list is right -/

/-- The daemon does not take a block whose father is gone, and `prune_chain` drops the right
numbers. -/
def KeepsBook (s : Chain) : Event → Prop
  | .daemon _ _ => ∀ p rest, s.blockQueue = p :: rest → s.Fathered p
  | .pruneChain pick pastEnd => PruneExact s pick pastEnd
  | _ => True

/-- What was listed for a block must still be listed for one. -/
theorem Book.exact_of_perm (hb : Book s) (hv : t.vecIndex = s.vecIndex)
    (hm : t.blockMap = s.blockMap) (hq : t.blockQueue.Perm s.blockQueue)
    (hidx : ∀ p ∈ s.blockQueue, (t.heap p).index = (s.heap p).index) :
    ∀ v ∈ t.vecIndex, v ∈ t.blockMap ∨ t.Pending v := by
  intro v hv'
  rw [hv] at hv'
  rw [hm]
  refine ((hb.mem_iff v).mp hv').imp_right ?_
  rintro ⟨p, hp, rfl⟩
  exact ⟨p, hq.mem_iff.mpr hp, hidx p hp⟩

/-- The daemon loses no number when it attaches the block it takes. -/
theorem Book.processed_iff {rest : List BlockPtr} (hb : Book s) (h : Linked s)
    (hq : s.blockQueue = p :: rest) :
    Book (s.processed H p rest pick seed) ↔ KeepsBook s (.daemon pick seed) := by
  have hc := (h.book_iff.mp hb).1
  have hp : p ∈ s.blockQueue := by rw [hq]; exact List.mem_cons_self
  have hkeeps : KeepsBook s (.daemon pick seed) ↔ s.fatherOf p pick ∈ s.blockMap := by
    rw [h.fatherOf_mem_iff]
    refine ⟨fun hk ↦ hk p rest hq, fun hk q r hq' ↦ ?_⟩
    cases hq.symm.trans hq'
    exact hk
  rw [hkeeps, (h.processed hq).book_iff]
  constructor
  · rintro ⟨-, hexact⟩
    rcases hexact _ (hc.pending p hp).1 with hmem | ⟨r, hr, hrp⟩
    · exact (mem_processed_iff.mp hmem).elim (absurd · (hc.pending p hp).2) fun hf ↦ hf.2
    · obtain ⟨hr', hne⟩ := h.mem_rest hq hr
      rw [processed_heap_of_ne hne] at hrp
      exact absurd (hc.distinct r hr' p hp hrp) hne
  · intro hf
    refine ⟨hc.processed h hq, fun v hv ↦ ?_⟩
    rcases (hb.mem_iff v).mp hv with hv' | ⟨r, hr, rfl⟩
    · exact .inl (mem_processed_iff.mpr (.inl hv'))
    · by_cases hrp : r = p
      · subst hrp
        exact .inl (mem_processed_iff.mpr (.inr ⟨rfl, hf⟩))
      · rw [hq] at hr
        have hr' := (List.mem_cons.mp hr).resolve_left hrp
        exact .inr ⟨r, hr', by rw [processed_heap_of_ne hrp]⟩

/-- `prune_chain` leaves the list right when its sweep drops the right numbers. -/
theorem Book.pruneChain_iff (hb : Book s) (h : Linked s) :
    Book (pruneChain s pick pastEnd).2 ↔ PruneExact s pick pastEnd := by
  have hc := (h.book_iff.mp hb).1
  have hlinked := h.pruneChain pick pastEnd
  obtain ⟨p, l, hp, hl, hall, heq⟩ := h.pruneChain_cases pick pastEnd
  obtain ⟨hsub, hkeep⟩ := sweepIndex_sublist (isInLongestAt (s.mark true l)) pastEnd s.vecIndex
  rw [PruneExact, forall_path_iff hp hl, sweepExact_iff hc.nodup]
  cases hdone : (sweepIndex (isInLongestAt (s.mark true l)) pastEnd s.vecIndex).1 with
  | false =>
    -- the call is left by an exception and `blockMap` stays what it was
    rw [hdone, if_neg (by simp)] at heq
    rw [if_neg (by simp)]
    have hidx : ∀ q ∈ s.blockQueue, ((s.mark true l).heap q).index = (s.heap q).index :=
      fun q _ ↦ by rw [mark_heap]
    constructor
    · intro hbt
      rw [heq] at hbt
      refine hsub.eq_of_length_le (List.subperm_of_subset hc.nodup fun v hv ↦ ?_).length_le
      refine (hbt.mem_iff v).mpr (((hb.mem_iff v).mp hv).imp_right ?_)
      rintro ⟨q, hq, rfl⟩
      exact ⟨q, hq, hidx q hq⟩
    · intro hv
      rw [hv] at heq
      rw [heq] at hlinked ⊢
      rw [hlinked.book_iff]
      exact ⟨hc.of_perm (.refl _) rfl (.refl _) hidx,
        hb.exact_of_perm rfl rfl (.refl _) hidx⟩
  | true =>
    have hsafe : PruneSafe s pick pastEnd :=
      (forall_path_iff hp hl).mpr ((sweepIndex_done_iff hc.nodup).mp hdone)
    have hct := hc.pruneChain h hsafe
    rw [hdone, if_pos rfl] at heq
    rw [if_pos rfl, hlinked.book_iff]
    have hpend : ∀ v, (pruneChain s pick pastEnd).2.Pending v ↔ s.Pending v := fun v ↦ by
      simp only [heq, Chain.Pending, prune_keeps]
      rfl
    have hmap : ∀ v, v ∈ (pruneChain s pick pastEnd).2.blockMap ↔
        isInLongestAt (s.mark true l) v = some true := fun v ↦ by rw [heq, mem_pruned_iff]
    have hvec : (pruneChain s pick pastEnd).2.vecIndex =
        (sweepIndex (isInLongestAt (s.mark true l)) pastEnd s.vecIndex).2 := by rw [heq]; rfl
    rw [hvec]
    simp only [hmap, hpend]
    constructor
    · rintro ⟨-, hexact⟩ v hv hm
      rcases hexact v hv with hm' | ⟨q, hq, rfl⟩
      · simp [hm] at hm'
      · simp [isInLongestAt_mark_eq_none (hc.pending q hq).2] at hm
    · refine fun hno ↦ ⟨hct, fun v hv ↦ ((hb.mem_iff v).mp (hsub.subset hv)).imp_left fun hv' ↦ ?_⟩
      obtain ⟨q, hq⟩ := exists_of_mem_blockMap hv'
      have hm : isInLongestAt (s.mark true l) v = some ((s.mark true l).heap q).isInLongest :=
        isInLongestAt_of_getElem? hq
      have hno' := hno v hv
      rw [hm] at hno' ⊢
      simpa using hno'

/-- **The step lemma.** -/
theorem Book.perform_iff (hb : Book s) (h : Linked s) (e : Event) :
    Book (perform H s e).2 ↔ KeepsBook s e := by
  have hc := (h.book_iff.mp hb).1
  have hlinked := h.perform (H := H) e
  cases e with
  | addBlock data length pick =>
    refine iff_of_true ?_ trivial
    have hct := hc.perform (H := H) h (e := .addBlock data length pick) trivial
    refine hlinked.book_iff.mpr ⟨hct, ?_⟩
    obtain ⟨p, -, heq⟩ := h.addBlock_cases data length pick
    rw [Blockchain.perform, heq]
    split
    · intro v hv
      exact (hb.mem_iff v).mp ((List.perm_insertionSort (· ≤ ·) s.vecIndex).mem_iff.mp hv)
    · intro v hv
      rcases mem_vecIndex_added.mp hv with hv | rfl
      · refine ((hb.mem_iff v).mp hv).imp_right ?_
        rintro ⟨q, hq, rfl⟩
        exact ⟨q, mem_blockQueue_added.mpr (.inl hq),
          by rw [added_heap_of_lt _ _ _ _ (h.pending q hq).2.1]⟩
      · exact .inr ⟨s.brk, mem_blockQueue_added.mpr (.inr rfl), index_added_self⟩
  | toLongest k =>
    refine iff_of_true ?_ trivial
    have hct := hc.perform (H := H) h (e := .toLongest k) trivial
    refine hlinked.book_iff.mpr ⟨hct, ?_⟩
    rw [Blockchain.perform]
    rcases toLongest_cases s k with heq | ⟨p, hp, heq⟩
    · rw [heq]
      exact fun v hv ↦ (hb.mem_iff v).mp hv
    · rw [heq]
      refine hb.exact_of_perm rfl rfl (.refl _) fun q _ ↦ ?_
      by_cases hq : q = p
      · subst hq
        simp [Chain.modify]
      · simp [Chain.modify, hq]
  | attachNow k =>
    refine iff_of_true ?_ trivial
    have hct := hc.perform (H := H) h (e := .attachNow k) trivial
    refine hlinked.book_iff.mpr ⟨hct, ?_⟩
    obtain ⟨q, hq, heq⟩ := attachNow_cases s k
    rw [Blockchain.perform, heq]
    exact hb.exact_of_perm rfl rfl hq fun _ _ ↦ rfl
  | pruneChain pick pastEnd => exact hb.pruneChain_iff h
  | daemon pick seed =>
    rw [Blockchain.perform]
    cases hq : s.blockQueue with
    | nil =>
      rw [daemonFunction_nil hq]
      exact iff_of_true hb fun p rest hq' ↦ by rw [hq] at hq'; cases hq'
    | cons p rest =>
      rw [h.daemonFunction_eq hq]
      exact hb.processed_iff h hq

/-- **The list of numbers is right in exactly the runs in which the daemon takes no block whose
father is gone and every sweep drops the right numbers.** -/
theorem always_book_iff {s₀ : Chain} {es : List Event}
    (h0 : initBlockchain Chain.fresh true = (.ret success, s₀)) :
    Run.Always (step H) Book s₀ es ↔ Run.Meets (step H) KeepsBook s₀ es := by
  refine Run.always_iff_meets (I := fun s ↦ Linked s ∧ Book s) (fun s e t hs hok hst ↦ ?_)
    (fun s hs ↦ hs.2) (fun s e t hs hst ht ↦ ?_)
    ⟨initBlockchain_linked h0, initBlockchain_book h0⟩
  · have hlinked := linked_step hs.1 hst
    rw [hs.1.step_eq] at hst
    cases hst
    exact ⟨hlinked, (hs.2.perform_iff hs.1 e).mpr hok⟩
  · rw [hs.1.step_eq] at hst
    cases hst
    exact (hs.2.perform_iff hs.1 e).mp ht

/-- The daemon takes block 3. -/
def orphanTakenEvents : List Event := orphanEvents ++ [.daemon 0 0]

theorem exec_orphanTakenEvents :
    ∃ s, Run.exec (step plainHash) (initBlockchain Chain.fresh true).2 orphanTakenEvents = some s ∧
      (decide ((3 : ℤ) ∈ s.vecIndex), decide ((3 : ℤ) ∈ s.blockMap), s.blockQueue) =
        (true, false, []) := by
  rw [← Option.map_eq_some_iff]
  decide

theorem not_book_of_listed (h : (decide (v ∈ s.vecIndex), decide (v ∈ s.blockMap), s.blockQueue) =
    (true, false, [])) : ¬Book s := fun hb ↦ by
  simp only [Prod.mk.injEq, decide_eq_true_eq, decide_eq_false_iff_not] at h
  obtain ⟨hv, hm, hq⟩ := h
  rcases (hb.mem_iff v).mp hv with hv' | ⟨p, hp, -⟩
  · exact hm hv'
  · simp [hq] at hp

/-- The number of a discarded block stays listed. -/
theorem exists_not_book :
    ∃ s₀ s, initBlockchain Chain.fresh true = (.ret success, s₀) ∧
      Run.exec (step plainHash) s₀ orphanTakenEvents = some s ∧ ¬Book s := by
  obtain ⟨s, hs, h⟩ := exec_orphanTakenEvents
  exact ⟨_, s, rfl, hs, not_book_of_listed h⟩

theorem always_book_iff_sample :
    ¬Run.Meets (step plainHash) KeepsBook (initBlockchain Chain.fresh true).2
      orphanTakenEvents := by
  intro hmeets
  obtain ⟨s, hs, h⟩ := exec_orphanTakenEvents
  exact not_book_of_listed h (((always_book_iff rfl).mpr hmeets).of_exec hs)

end Blockchain
