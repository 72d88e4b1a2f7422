import OsExercises.Blockchain.Lifecycle
import OsExercises.Blockchain.Numbers

/-!
# What pruning leaves

`prune_chain` marks the way from a deepest block to the genesis block and drops what is not marked,
first from `vecIndex` and then from `blockMap`.  When no block is pending, both sweeps run to their
ends.  What is left is the marked way and nothing else unless

* an earlier call was left by an exception and its marks are still there,
* the depths on the way are not the distances to the genesis block,
* the number of a block on the way is not listed, or
* the sweep over `vecIndex` stops too early: it stops at an element equal to what lies past the end,
  which is the former last element from the first erasure on.

`pruneChain_leaves_iff` says that these are the only reasons.
-/

set_option autoImplicit false

namespace Blockchain

variable {s t : Chain} {p q g : BlockPtr} {k v : ℤ} {H : HashLib} {pick seed : ℕ} {pastEnd : ℤ}
variable {l : List BlockPtr} {m m' : Lifecycle} {e : LifeEvent}

/-! ## The listed numbers -/

/-- What holds of `vecIndex` in every run, whatever the calls do to the numbers. -/
structure Listed (s : Chain) : Prop where
  /-- A number is listed once. -/
  nodup : s.vecIndex.Nodup
  /-- Numbers are not negative. -/
  nonneg : ∀ v ∈ s.vecIndex, 0 ≤ v
  /-- No number is listed while the chain is not open. -/
  shut : s.isInitiated = false → s.vecIndex = []

/-- Dropping and reordering numbers does not matter. -/
theorem Listed.of_subperm (hl : Listed s) (hv : t.vecIndex.Subperm s.vecIndex)
    (hinit : t.isInitiated = s.isInitiated) : Listed t := by
  obtain ⟨l, hperm, hsub⟩ := hv
  refine ⟨hperm.nodup_iff.mp (hsub.nodup hl.nodup),
    fun v hv ↦ hl.nonneg v (hsub.subset (hperm.mem_iff.mpr hv)), fun h ↦ ?_⟩
  rw [hl.shut (hinit.symm.trans h), List.sublist_nil] at hsub
  subst hsub
  exact hperm.nil_eq.symm

theorem Listed.added {data : Option (List UInt8)} {length f d : ℤ} (hl : Listed s)
    (hinit : s.isInitiated = true) : Listed (s.added data length f d) where
  nodup := nodup_vecIndex_added hl.nodup hl.nonneg
  nonneg := fun _ ↦ nonneg_of_mem_added hl.nonneg
  shut := fun h ↦ absurd (hinit.symm.trans h) Bool.noConfusion

/-- A call keeps the list in order. -/
theorem Listed.perform (hl : Listed s) (h : Linked s) {c : Event} (hc : c.isCall = true) :
    Listed (perform H s c).2 := by
  have hinit := (h.callFrame (H := H) hc).initiated
  match c with
  | .addBlock data length pick =>
    obtain ⟨p, -, heq⟩ := h.addBlock_cases data length pick
    rw [Blockchain.perform, heq]
    split
    · exact hl.of_subperm (List.perm_insertionSort _ _).subperm rfl
    · exact hl.added h.initiated
  | .toLongest k =>
    rw [Blockchain.perform]
    rcases toLongest_cases s k with heq | ⟨p, -, heq⟩
    · rwa [heq]
    · rw [heq]
      exact hl.of_subperm (.refl _) rfl
  | .attachNow k =>
    obtain ⟨q, -, heq⟩ := attachNow_cases s k
    rw [Blockchain.perform, heq]
    exact hl.of_subperm (.refl _) rfl
  | .pruneChain pick pastEnd =>
    obtain ⟨p, l, -, -, -, heq⟩ := h.pruneChain_cases pick pastEnd
    obtain ⟨hsub, -⟩ := sweepIndex_sublist (isInLongestAt (s.mark true l)) pastEnd s.vecIndex
    rw [Blockchain.perform, heq]
    split
    · exact hl.of_subperm hsub.subperm rfl
    · exact hl.of_subperm hsub.subperm rfl

/-- **The step lemma.** -/
theorem Listed.step (hl : Listed m.chain) (hs : m.Sound) (hst : m.step H e = some m') :
    Listed m'.chain := by
  cases hs.moves hst with
  | opened created hno =>
    refine ⟨?_, ?_, fun h ↦ by cases h⟩
    · simp [Chain.opened, hl.shut hno]
    · simp [Chain.opened, hl.shut hno]
  | refused created b => exact hl.of_subperm (.refl _) rfl
  | called c hc =>
    rw [Lifecycle.called_chain]
    by_cases hclosed : (!m.chain.isInitiated || m.chain.currentlyBlocked) = true
    · rcases perform_closed_cases (H := H) hclosed hc with heq | ⟨p, -, heq⟩
      · rwa [heq]
      · rw [heq]
        exact hl.of_subperm (.refl _) rfl
    · exact hl.perform (hs.linked_of_open hclosed) hc
  | idle pick seed hq => exact hl
  | took p rest pick seed hinit hq => exact hl.of_subperm (.refl _) rfl
  | closed =>
    rw [closeChain]
    split
    · exact hl.of_subperm (.refl _) rfl
    · exact hl
  | drained p rest pick seed hinit hq => exact hl.of_subperm (.refl _) rfl
  | finished hq => exact ⟨List.nodup_nil, by simp [resetChain], fun _ ↦ rfl⟩

/-- **The run lemma.** -/
theorem Lifecycle.exec_listed {es : List LifeEvent}
    (h : Run.exec (Lifecycle.step H) .fresh es = some m) : m.Sound ∧ Listed m.chain :=
  Run.exec_induction (I := fun m : Lifecycle ↦ m.Sound ∧ Listed m.chain)
    (fun _ _ _ hs hst ↦ ⟨hs.1.step hst, hs.2.step hs.1 hst⟩)
    ⟨Lifecycle.fresh_sound, List.nodup_nil, by simp [Lifecycle.fresh, Chain.fresh], fun _ ↦ rfl⟩ h

/-! ## How far the sweep goes -/

variable {mark : ℤ → Option Bool} {keep : ℤ → Prop} {vs : List ℤ}

/-- If there is a number to drop, the sweep over the list reaches the first one before an element
that equals what lies past the end, and the last element, at which it stops then, is kept or is that
one. -/
def SweepReaches (keep : ℤ → Prop) (pastEnd : ℤ) (vs : List ℤ) : Prop :=
  ∀ before v rest, vs = before ++ v :: rest → (∀ u ∈ before, keep u) → ¬keep v →
    pastEnd ∉ before ++ [v] ∧ ∀ z, rest.getLast? = some z → keep z

theorem SweepReaches.congr {keep' : ℤ → Prop} (h : ∀ v ∈ vs, keep v ↔ keep' v) :
    SweepReaches keep pastEnd vs ↔ SweepReaches keep' pastEnd vs := by
  refine forall₃_congr fun before v rest ↦ forall_congr' fun hvs ↦ ?_
  subst hvs
  have hbefore : (∀ u ∈ before, keep u) ↔ ∀ u ∈ before, keep' u :=
    forall₂_congr fun u hu ↦ h u (List.mem_append_left _ hu)
  have hlast : (∀ z, rest.getLast? = some z → keep z) ↔ ∀ z, rest.getLast? = some z → keep' z :=
    forall₂_congr fun z hz ↦
      h z (List.mem_append_right _ (List.mem_cons_of_mem _ (List.mem_of_getLast? hz)))
  rw [hbefore, hlast, h v (by simp)]

/-- Where nothing is dropped, it does not matter where the sweep stops. -/
theorem sweepReaches_of_forall (h : ∀ v ∈ vs, keep v) : SweepReaches keep pastEnd vs := by
  intro before v rest heq _ hv
  exact absurd (h v (by simp [heq])) hv

/-- The first number that is dropped. -/
theorem exists_first_dropped (h : ¬∀ v ∈ vs, keep v) :
    ∃ before v rest, vs = before ++ v :: rest ∧ (∀ u ∈ before, keep u) ∧ ¬keep v := by
  induction vs with
  | nil => simp at h
  | cons a vs ih =>
    by_cases ha : keep a
    · obtain ⟨before, v, rest, rfl, hbefore, hv⟩ := ih fun hall ↦ h (by simpa [ha] using hall)
      exact ⟨a :: before, v, rest, rfl, by simpa [ha] using hbefore, hv⟩
    · exact ⟨[], a, vs, rfl, by simp, ha⟩

theorem sweepReaches_cons_of_keep {v : ℤ} (hv : keep v) :
    SweepReaches keep pastEnd (v :: vs) ↔
      (v = pastEnd → ∀ u ∈ vs, keep u) ∧ SweepReaches keep pastEnd vs := by
  constructor
  · intro h
    have hrest : ∀ before u rest, vs = before ++ u :: rest → (∀ x ∈ before, keep x) → ¬keep u →
        pastEnd ∉ v :: before ++ [u] ∧ ∀ z, rest.getLast? = some z → keep z :=
      fun before u rest heq hbefore hu ↦
        h (v :: before) u rest (by rw [heq, List.cons_append]) (by simpa [hv] using hbefore) hu
    refine ⟨fun heq ↦ ?_, fun before u rest heq hbefore hu ↦ ?_⟩
    · by_contra hno
      obtain ⟨before, u, rest, hvs, hbefore, hu⟩ := exists_first_dropped hno
      exact (hrest before u rest hvs hbefore hu).1 (by simp [heq])
    · obtain ⟨h1, h2⟩ := hrest before u rest heq hbefore hu
      exact ⟨fun hmem ↦ h1 (List.mem_cons_of_mem _ hmem), h2⟩
  · rintro ⟨hend, h⟩ before u rest heq hbefore hu
    match before with
    | [] =>
      rw [List.nil_append, List.cons.injEq] at heq
      exact absurd (heq.1 ▸ hv) hu
    | a :: before =>
      rw [List.cons_append, List.cons.injEq] at heq
      obtain ⟨rfl, heq⟩ := heq
      obtain ⟨h1, h2⟩ := h before u rest heq (fun x hx ↦ hbefore x (List.mem_cons_of_mem _ hx)) hu
      refine ⟨fun hmem ↦ ?_, h2⟩
      rcases List.mem_cons.mp hmem with heq' | hmem
      · exact hu (hend heq'.symm u (by simp [heq]))
      · exact h1 hmem

theorem sweepReaches_cons_of_not {v : ℤ} (hv : ¬keep v) :
    SweepReaches keep pastEnd (v :: vs) ↔
      v ≠ pastEnd ∧ ∀ z, vs.getLast? = some z → keep z := by
  constructor
  · intro h
    obtain ⟨h1, h2⟩ := h [] v vs rfl (by simp) hv
    exact ⟨fun heq ↦ h1 (by simp [heq]), h2⟩
  · rintro ⟨hend, h⟩ before u rest heq hbefore hu
    match before with
    | [] =>
      rw [List.nil_append, List.cons.injEq] at heq
      obtain ⟨rfl, rfl⟩ := heq
      exact ⟨by simpa using Ne.symm hend, h⟩
    | a :: before =>
      rw [List.cons_append, List.cons.injEq] at heq
      exact absurd (heq.1 ▸ hbefore a List.mem_cons_self) hv

/-- **The sweep over numbers of attached blocks runs to its end.** -/
theorem sweepSafe_of_ne_none (h : ∀ v ∈ vs, mark v ≠ none) : SweepSafe mark pastEnd vs := by
  induction vs with
  | nil => trivial
  | cons v vs ih =>
    have hrest : ∀ u ∈ vs, mark u ≠ none := fun u hu ↦ h u (List.mem_cons_of_mem _ hu)
    refine .inr ?_
    match hv : mark v with
    | none => exact h v List.mem_cons_self hv
    | some true => exact ih hrest
    | some false => exact fun u hu ↦ hrest u (List.dropLast_subset _ hu)

/-- **When it drops the right ones.** -/
theorem sweepExact_iff_reaches (h : ∀ v ∈ vs, mark v ≠ none) :
    SweepExact mark pastEnd vs ↔ SweepReaches (mark · = some true) pastEnd vs := by
  induction vs with
  | nil => exact iff_of_true trivial fun before v rest heq ↦ by simp at heq
  | cons v vs ih =>
    have hrest : ∀ u ∈ vs, mark u ≠ none := fun u hu ↦ h u (List.mem_cons_of_mem _ hu)
    have hkeep : ∀ u ∈ v :: vs, mark u ≠ some false ↔ mark u = some true := fun u hu ↦ by
      have hu' := h u hu
      revert hu'
      rcases mark u with _ | _ | _ <;> simp
    rw [SweepExact]
    by_cases hend : v = pastEnd
    · rw [if_pos hend, forall₂_congr hkeep]
      by_cases hv : mark v = some true
      · rw [sweepReaches_cons_of_keep hv, List.forall_mem_cons]
        exact ⟨fun hall ↦ ⟨fun _ ↦ hall.2, sweepReaches_of_forall hall.2⟩,
          fun hall ↦ ⟨hv, hall.1 hend⟩⟩
      · rw [sweepReaches_cons_of_not hv]
        exact iff_of_false (fun hall ↦ hv (hall v List.mem_cons_self)) fun hno ↦ hno.1 hend
    · rw [if_neg hend]
      rcases hv : mark v with _ | _ | _
      · exact absurd hv (h v List.mem_cons_self)
      · rw [sweepReaches_cons_of_not (by simp [hv])]
        have hinit : ∀ u ∈ vs.dropLast, mark u ≠ none := fun u hu ↦
          hrest u (List.dropLast_subset _ hu)
        refine ⟨fun hr ↦ ⟨hend, fun z hz ↦ ?_⟩, fun hr ↦ ⟨hinit, fun z hz ↦ ?_⟩⟩
        · exact (hkeep z (List.mem_cons_of_mem _ (List.mem_of_getLast? hz))).mp (hr.2 z hz)
        · exact (hkeep z (List.mem_cons_of_mem _ (List.mem_of_getLast? hz))).mpr (hr.2 z hz)
      · rw [sweepReaches_cons_of_keep hv, ih hrest]
        exact ⟨fun hr ↦ ⟨fun heq ↦ absurd heq hend, hr⟩, fun hr ↦ hr.2⟩

/-! ## What is left -/

/-- The depths of some blocks are the numbers up to `n`, each once. -/
structure Graded (s : Chain) (K : BlockPtr → Prop) (n : ℤ) : Prop where
  /-- No other depth occurs. -/
  bounds : ∀ q, K q → 0 ≤ (s.heap q).depth ∧ (s.heap q).depth ≤ n
  /-- There is one block of each depth. -/
  unique : ∀ d, 0 ≤ d → d ≤ n → ∃! q, K q ∧ (s.heap q).depth = d

/-- The state `t` has just the blocks of `s` on the way `l` from the deepest block `p` to the
genesis block. -/
structure LeavesPath (s t : Chain) (p : BlockPtr) (l : List BlockPtr) : Prop where
  /-- The block was attached. -/
  attached : s.Attached p
  /-- No block was deeper. -/
  deepest : ∀ q, s.Attached q → (s.heap q).depth ≤ (s.heap p).depth
  /-- The blocks on the way are the block and its ancestors. -/
  path : RootPath s.next p l
  /-- They are what is left of `blockMap`. -/
  blocks : ∀ (k : ℤ) (q : BlockPtr), t.blockMap[k]? = some q ↔ s.blockMap[k]? = some q ∧ q ∈ l
  /-- There is one of each depth. -/
  depths : Graded t t.Attached (s.heap p).depth
  /-- Just their numbers are listed. -/
  numbers : ∀ v, v ∈ t.vecIndex ↔ v ∈ t.blockMap
  /-- They are not marked, and are the same otherwise. -/
  fields : ∀ q, t.Attached q → t.heap q = { s.heap q with isInLongest := false }

/-- `prune_chain` succeeds and leaves the way from a deepest block to the genesis block. -/
def PruneLeaves (s : Chain) (pick : ℕ) (pastEnd : ℤ) : Prop :=
  (pruneChain s pick pastEnd).1 = .ret success ∧
    ∃ p l, LeavesPath s (pruneChain s pick pastEnd).2 p l

/-- A block on the way has this number. -/
def OnPath (s : Chain) (l : List BlockPtr) (v : ℤ) : Prop := ∃ q ∈ l, (s.heap q).index = v

/-- What the way `l` from the chosen block `p` must be like. -/
structure PathPrunable (s : Chain) (pastEnd : ℤ) (p : BlockPtr) (l : List BlockPtr) : Prop where
  /-- No other block is marked. -/
  unmarked : ∀ q, s.Attached q → (s.heap q).isInLongest = true → q ∈ l
  /-- The depths on the way are right. -/
  depths : Graded s (· ∈ l) (s.heap p).depth
  /-- The numbers on the way are listed. -/
  listed : ∀ q ∈ l, (s.heap q).index ∈ s.vecIndex
  /-- The sweep reaches the numbers that are not on the way. -/
  reaches : SweepReaches (OnPath s l) pastEnd s.vecIndex

/-- The way from the block that `prune_chain` chooses can be left alone. -/
def Prunable (s : Chain) (pick : ℕ) (pastEnd : ℤ) : Prop :=
  ∀ p l, s.blockMap[findFather s pick]? = some p → RootPath s.next p l →
    PathPrunable s pastEnd p l

/-- The blocks that are left when a way was marked: those on it, and those that were marked before.
-/
theorem getElem?_mark_pruned {v : List ℤ} {r : BlockPtr} :
    ((s.mark true l).pruned v).blockMap[k]? = some r ↔
      s.blockMap[k]? = some r ∧ (r ∈ l ∨ (s.heap r).isInLongest = true) := by
  rw [getElem?_pruned, mark_heap]
  refine and_congr_right fun _ ↦ ?_
  by_cases hr : r ∈ l <;> simp [hr]

/-- All but the marks of the blocks is as it was. -/
theorem mark_pruned_heap (s : Chain) (l : List BlockPtr) (v : List ℤ) (r : BlockPtr) :
    ((s.mark true l).pruned v).heap r =
      { s.heap r with isInLongest := (((s.mark true l).pruned v).heap r).isInLongest } := by
  rw [pruned_heap_eq, mark_heap]

theorem Graded.congr {K K' : BlockPtr → Prop} {n : ℤ} (hK : ∀ q, K q ↔ K' q)
    (hd : ∀ q, K q → (t.heap q).depth = (s.heap q).depth) : Graded t K n ↔ Graded s K' n := by
  have hand : ∀ q d, (K q ∧ (t.heap q).depth = d) ↔ (K' q ∧ (s.heap q).depth = d) := fun q d ↦ by
    rw [← hK]
    exact and_congr_right fun hq ↦ by rw [hd q hq]
  refine ⟨fun h ↦ ⟨fun q hq ↦ ?_, fun d h0 hn ↦ ?_⟩, fun h ↦ ⟨fun q hq ↦ ?_, fun d h0 hn ↦ ?_⟩⟩
  · rw [← hd q ((hK q).mpr hq)]
    exact h.bounds q ((hK q).mpr hq)
  · simp only [← hand]
    exact h.unique d h0 hn
  · rw [hd q hq]
    exact h.bounds q ((hK q).mp hq)
  · simp only [hand]
    exact h.unique d h0 hn

/-- Where only the blocks on the way are marked, the marks tell which numbers are on it. -/
theorem Linked.isInLongestAt_mark_iff (h : Linked s) (hall : ∀ q ∈ l, s.Attached q)
    (hmarks : ∀ q, s.Attached q → (s.heap q).isInLongest = true → q ∈ l) :
    isInLongestAt (s.mark true l) v = some true ↔ OnPath s l v := by
  rw [← mem_pruned_iff (l := []), Std.TreeMap.mem_iff_isSome_getElem?, Option.isSome_iff_exists]
  simp only [getElem?_mark_pruned]
  constructor
  · rintro ⟨q, hq, hql | hm⟩
    · exact ⟨q, hql, h.key v q hq⟩
    · exact ⟨q, hmarks q (h.attached hq) hm, h.key v q hq⟩
  · rintro ⟨q, hql, rfl⟩
    exact ⟨q, hall q hql, .inl hql⟩

/-- When the blocks that are left are those of a way, so are their numbers. -/
theorem Linked.mem_blockMap_iff_onPath (h : Linked s) (hall : ∀ q ∈ l, s.Attached q)
    (hblocks : ∀ (k : ℤ) (q : BlockPtr), t.blockMap[k]? = some q ↔ s.blockMap[k]? = some q ∧ q ∈ l)
    (u : ℤ) : u ∈ t.blockMap ↔ OnPath s l u := by
  constructor
  · intro hu
    obtain ⟨q, hq⟩ := exists_of_mem_blockMap hu
    obtain ⟨hq', hql⟩ := (hblocks u q).mp hq
    exact ⟨q, hql, h.key u q hq'⟩
  · rintro ⟨q, hql, rfl⟩
    exact mem_blockMap ((hblocks _ q).mpr ⟨hall q hql, hql⟩)

/-- What the state after both sweeps must satisfy. -/
theorem Linked.leavesPath_iff {v : List ℤ} (h : Linked s) (hp : s.Attached p)
    (hdeep : ∀ q, s.Attached q → (s.heap q).depth ≤ (s.heap p).depth) (hl : RootPath s.next p l)
    (hall : ∀ q ∈ l, s.Attached q) :
    (∃ p' l', LeavesPath s ((s.mark true l).pruned v) p' l') ↔
      (∀ q, s.Attached q → (s.heap q).isInLongest = true → q ∈ l) ∧
        Graded s (· ∈ l) (s.heap p).depth ∧ ∀ u, u ∈ v ↔ OnPath s l u := by
  generalize ht : (s.mark true l).pruned v = t
  have hmap : ∀ (k : ℤ) (q : BlockPtr), t.blockMap[k]? = some q ↔
      s.blockMap[k]? = some q ∧ (q ∈ l ∨ (s.heap q).isInLongest = true) := fun k q ↦ by
    rw [← ht, getElem?_mark_pruned]
  have hheap : ∀ q, t.heap q = { s.heap q with isInLongest := (t.heap q).isInLongest } :=
    fun q ↦ by rw [← ht, ← mark_pruned_heap]
  have hatt : ∀ q, t.Attached q ↔ s.Attached q ∧ (q ∈ l ∨ (s.heap q).isInLongest = true) :=
    fun q ↦ by rw [Chain.Attached, hheap, hmap]; rfl
  have hdepth : ∀ q, (t.heap q).depth = (s.heap q).depth := fun q ↦ by rw [hheap]
  have hvec : t.vecIndex = v := by rw [← ht]; rfl
  constructor
  · rintro ⟨p', l', hleft⟩
    have hmem : ∀ q, t.Attached q ↔ s.Attached q ∧ q ∈ l' := fun q ↦ by
      rw [Chain.Attached, hheap, hleft.blocks]
      rfl
    have hpt : t.Attached p := (hatt p).mpr ⟨hp, .inl hl.mem_self⟩
    have hpt' : t.Attached p' := (hmem p').mpr ⟨hleft.attached, hleft.path.mem_self⟩
    have hsame : (s.heap p).depth = (s.heap p').depth :=
      le_antisymm (hleft.deepest p hp) (hdeep p' hleft.attached)
    -- there is only one block of the greatest depth, so the two ways are the same
    obtain rfl : p = p' := by
      have hd := (hleft.depths.bounds p' hpt').1
      rw [hdepth] at hd
      exact (hleft.depths.unique _ hd le_rfl).unique ⟨hpt, by rw [hdepth, hsame]⟩
        ⟨hpt', by rw [hdepth]⟩
    obtain rfl := hl.unique hleft.path
    have hin : ∀ q, t.Attached q ↔ q ∈ l := fun q ↦ by
      rw [hmem]
      exact and_iff_right_of_imp (hall q)
    refine ⟨fun q hq hm ↦ (hin q).mp ((hatt q).mpr ⟨hq, .inr hm⟩),
      (Graded.congr hin fun q _ ↦ hdepth q).mp hleft.depths, fun u ↦ ?_⟩
    rw [← hvec, hleft.numbers]
    exact h.mem_blockMap_iff_onPath hall hleft.blocks u
  · rintro ⟨hmarks, hgraded, hnumbers⟩
    have hblocks : ∀ (k : ℤ) (q : BlockPtr),
        t.blockMap[k]? = some q ↔ s.blockMap[k]? = some q ∧ q ∈ l := fun k q ↦ by
      rw [hmap]
      refine and_congr_right fun hk ↦ or_iff_left_of_imp fun hm ↦ ?_
      exact hmarks q (h.attached hk) hm
    have hin : ∀ q, t.Attached q ↔ q ∈ l := fun q ↦ by
      rw [Chain.Attached, hheap, hblocks]
      exact and_iff_right_of_imp (hall q)
    refine ⟨p, l, hp, hdeep, hl, hblocks, (Graded.congr hin fun q _ ↦ hdepth q).mpr hgraded,
      fun u ↦ ?_, fun q hq ↦ ?_⟩
    · rw [hvec, hnumbers]
      exact (h.mem_blockMap_iff_onPath hall hblocks u).symm
    · have hfalse : (t.heap q).isInLongest = false := by
        rw [Chain.Attached, ← ht] at hq
        rw [← ht]
        exact pruned_heap hq
      rw [hheap q, hfalse]

/-- **When pruning leaves a way**, if every listed number is one of an attached block. -/
theorem Linked.pruneLeaves_iff (h : Linked s) (hlisted : Listed s)
    (hvec : ∀ v ∈ s.vecIndex, v ∈ s.blockMap) :
    PruneLeaves s pick pastEnd ↔ Prunable s pick pastEnd := by
  obtain ⟨p, l, hp, hl, hall, heq⟩ := h.pruneChain_cases pick pastEnd
  have hdeep : ∀ q, s.Attached q → (s.heap q).depth ≤ (s.heap p).depth := by
    obtain ⟨p', hp', hdeep⟩ := h.findFather_spec pick
    cases hp.symm.trans hp'
    exact hdeep
  have hsome : ∀ v ∈ s.vecIndex, isInLongestAt (s.mark true l) v ≠ none := fun v hv hno ↦
    isInLongestAt_eq_none.mp hno (hvec v hv)
  have hprunable : Prunable s pick pastEnd ↔ PathPrunable s pastEnd p l := by
    refine ⟨fun hok ↦ hok p l hp hl, fun hok p' l' hp' hl' ↦ ?_⟩
    cases hp.symm.trans hp'
    rwa [hl'.unique hl]
  have hdone : (sweepIndex (isInLongestAt (s.mark true l)) pastEnd s.vecIndex).1 = true :=
    (sweepIndex_done_iff hlisted.nodup).mpr (sweepSafe_of_ne_none hsome)
  have hexact : SweepExact (isInLongestAt (s.mark true l)) pastEnd s.vecIndex ↔ _ :=
    sweepExact_iff hlisted.nodup
  obtain ⟨hsub, hkeep⟩ := sweepIndex_sublist (isInLongestAt (s.mark true l)) pastEnd s.vecIndex
  rw [if_pos hdone, sweepExact_iff_reaches hsome] at hexact
  rw [if_pos hdone] at heq
  rw [hprunable, PruneLeaves, heq, h.leavesPath_iff (h.attached hp) hdeep hl hall]
  constructor
  · rintro ⟨-, hmarks, hgraded, hnumbers⟩
    have hon : ∀ u, isInLongestAt (s.mark true l) u = some true ↔ OnPath s l u := fun u ↦
      h.isInLongestAt_mark_iff hall hmarks
    refine ⟨hmarks, hgraded, fun q hq ↦ hsub.subset ((hnumbers _).mpr ⟨q, hq, rfl⟩), ?_⟩
    refine (SweepReaches.congr fun u _ ↦ hon u).mp (hexact.mpr fun u hu ↦ ?_)
    rw [(hon u).mpr ((hnumbers u).mp hu)]
    simp
  · rintro ⟨hmarks, hgraded, hlist, hreach⟩
    have hon : ∀ u, isInLongestAt (s.mark true l) u = some true ↔ OnPath s l u := fun u ↦
      h.isInLongestAt_mark_iff hall hmarks
    have hkept := hexact.mp ((SweepReaches.congr fun u _ ↦ hon u).mpr hreach)
    refine ⟨rfl, hmarks, hgraded, fun u ↦ ⟨fun hu ↦ (hon u).mp ?_, fun hu ↦ ?_⟩⟩
    · have hne := hsome u (hsub.subset hu)
      have hnf := hkept u hu
      revert hne hnf
      rcases isInLongestAt (s.mark true l) u with _ | _ | _ <;> simp
    · obtain ⟨q, hq, rfl⟩ := hu
      refine (hkeep _ (hlist q hq)).resolve_right fun hm ↦ ?_
      rw [(hon _).mpr ⟨q, hq, rfl⟩] at hm
      cases hm

/-- **Pruning leaves the way from a deepest block to the genesis block exactly when no block off
that way is marked, the depths on it are right, its numbers are listed, and the sweep reaches the
numbers to drop**, in every state of every run in which the chain is open and all listed numbers are
those of attached blocks. -/
theorem pruneChain_leaves_iff {es : List LifeEvent}
    (h : Run.exec (Lifecycle.step H) .fresh es = some m) (hinit : m.chain.isInitiated = true)
    (hblk : m.chain.currentlyBlocked = false) (hvec : ∀ v ∈ m.chain.vecIndex, v ∈ m.chain.blockMap)
    (pick : ℕ) (pastEnd : ℤ) :
    PruneLeaves m.chain pick pastEnd ↔ Prunable m.chain pick pastEnd := by
  obtain ⟨hs, hlisted⟩ := Lifecycle.exec_listed h
  have hlinked : Linked m.chain := hs.linked_of_open (by simp [hinit, hblk])
  exact hlinked.pruneLeaves_iff hlisted hvec

/-- Blocks 1, 2 and 3 are attached to the genesis block. -/
def siblingEvents : List LifeEvent :=
  openedEvents [.addBlock none 0 0, .addBlock none 0 0, .addBlock none 0 0, .daemon 0 0,
    .daemon 0 0, .daemon 0 0]

theorem exec_siblingEvents :
    ∃ m, Run.exec (Lifecycle.step plainHash) .fresh siblingEvents = some m ∧
      (m.chain.isInitiated, m.chain.currentlyBlocked, m.chain.blockQueue,
        decide (∀ v ∈ m.chain.vecIndex, v ∈ m.chain.blockMap),
        decide ((3 : ℤ) ∈ (pruneChain m.chain 0 (-1)).2.vecIndex),
        decide ((3 : ℤ) ∈ (pruneChain m.chain 0 (-1)).2.blockMap)) =
          (true, false, [], true, true, false) := by
  rw [← Option.map_eq_some_iff]
  decide

/-- A number that is listed and is not one of an attached block was forgotten. -/
theorem not_pruneLeaves_of_listed (hv : v ∈ (pruneChain s pick pastEnd).2.vecIndex)
    (hm : v ∉ (pruneChain s pick pastEnd).2.blockMap) : ¬PruneLeaves s pick pastEnd := by
  rintro ⟨-, p, l, hleft⟩
  exact hm ((hleft.numbers v).mp hv)

/-- Pruning drops block 3 and leaves its number in the list. -/
theorem exists_not_pruneLeaves :
    ∃ m, Run.exec (Lifecycle.step plainHash) .fresh siblingEvents = some m ∧
      m.chain.isInitiated = true ∧ m.chain.currentlyBlocked = false ∧ m.chain.blockQueue = [] ∧
      (∀ v ∈ m.chain.vecIndex, v ∈ m.chain.blockMap) ∧ ¬PruneLeaves m.chain 0 (-1) := by
  obtain ⟨m, hm, h⟩ := exec_siblingEvents
  simp only [Prod.mk.injEq, decide_eq_true_eq, decide_eq_false_iff_not] at h
  obtain ⟨hinit, hblk, hq, hvec, h3, h3'⟩ := h
  exact ⟨m, hm, hinit, hblk, hq, hvec, not_pruneLeaves_of_listed h3 h3'⟩

theorem pruneChain_leaves_iff_sample :
    ∃ m, Run.exec (Lifecycle.step plainHash) .fresh siblingEvents = some m ∧
      ¬Prunable m.chain 0 (-1) := by
  obtain ⟨m, hm, h⟩ := exec_siblingEvents
  simp only [Prod.mk.injEq, decide_eq_true_eq, decide_eq_false_iff_not] at h
  obtain ⟨hinit, hblk, -, hvec, h3, h3'⟩ := h
  refine ⟨m, hm, fun hok ↦ ?_⟩
  exact not_pruneLeaves_of_listed h3 h3'
    ((pruneChain_leaves_iff hm hinit hblk hvec 0 (-1)).mpr hok)

end Blockchain
