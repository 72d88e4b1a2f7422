import OsExercises.CachingFs.Blocks
import OsExercises.CachingFs.FileTree
import OsExercises.ForMathlib.Run
import Mathlib.Data.List.Pairwise

/-!
# Renaming and the cache

`caching_rename` gives the new path to the slots that have the old one, and looks at no other slot.
Two kinds of other slots can be wrong afterwards: those of a file that was replaced, and those of
files below a directory that was moved.

* `Named` says that every slot holds a block of the file its path leads to, and that no block is
  there twice.
* `KeepsNames` says when a rename keeps this, and `Named.rename_iff` that it is exact.
* `always_named_iff` is the same for sequences of renames.
-/

set_option autoImplicit false

namespace CachingFs

variable {cfg : Config} {content : ℕ → List UInt8} {t t' : FileTree} {c : Cache} {b b' : CacheBlock}
variable {p q path newpath : Path}

/-! ## The property -/

/-- A slot holds the block it is filed under, of the file its path leads to. -/
def HoldsBlock (cfg : Config) (content : ℕ → List UInt8) (t : FileTree) (b : CacheBlock) : Prop :=
  ∀ p, b.path = some p → ∃ i k : ℕ, t.node p = some (.file i) ∧ b.blockEnumerator = k + 1 ∧
    b.data = block cfg (content i) k

/-- Two slots are not filed under the same block. -/
def Apart (b b' : CacheBlock) : Prop :=
  b.path ≠ none → b.path = b'.path → b.blockEnumerator ≠ b'.blockEnumerator

/-- Every slot holds the block it is filed under, and no block is there twice. -/
structure Named (cfg : Config) (content : ℕ → List UInt8) (t : FileTree) (c : Cache) : Prop where
  /-- The blocks. -/
  holds : ∀ b ∈ c, HoldsBlock cfg content t b
  /-- No block is there twice. -/
  apart : c.Pairwise Apart

/-- A call of `caching_rename`: the tree and the cache afterwards.  The call of `rename` may fail,
and then changes nothing. -/
def renameStep (s : FileTree × Cache) (e : Rename) : Option (FileTree × Cache) :=
  (if e.error = none then s.1.rename e.path e.newpath else some s.1).map fun t' ↦
    (t', (cachingRename e.error e.path e.newpath s.2).2)

/-- No block is cached under the old and under the new path; the blocks under the new path are the
same in the file that replaces it; and nothing is cached that lies below the old path. -/
structure KeepsNames (cfg : Config) (content : ℕ → List UInt8) (t : FileTree) (c : Cache)
    (path newpath : Path) : Prop where
  /-- The blocks under the two paths have different numbers. -/
  apart : ∀ b ∈ c, ∀ b' ∈ c, b.path = some path → b'.path = some newpath →
    b.blockEnumerator ≠ b'.blockEnumerator
  /-- The blocks of a file that is replaced are the same in the new one. -/
  same : ∀ b ∈ c, b.path = some newpath → ∀ i j k : ℕ, t.node path = some (.file i) →
    t.node newpath = some (.file j) → b.blockEnumerator = k + 1 →
    block cfg (content i) k = block cfg (content j) k
  /-- No file below a directory that is moved is in the cache. -/
  below : ∀ b ∈ c, ∀ p, b.path = some p → ¬Below path p

/-- The call fails, does nothing, or keeps the names. -/
def Rename.Harmless (cfg : Config) (content : ℕ → List UInt8) (s : FileTree × Cache)
    (e : Rename) : Prop :=
  e.error ≠ none ∨ e.path = e.newpath ∨ KeepsNames cfg content s.1 s.2 e.path e.newpath

/-! ## One rename -/

/-- A slot after a rename. -/
def CacheBlock.renamed (path newpath : Path) (b : CacheBlock) : CacheBlock :=
  if b.path = some path then b.setPath newpath else b

theorem renamed_of_eq (h : b.path = some path) :
    b.renamed path newpath = { b with path := some newpath } := by
  rw [CacheBlock.renamed, if_pos h, CacheBlock.setPath]

theorem renamed_of_ne (h : b.path ≠ some path) : b.renamed path newpath = b := by
  rw [CacheBlock.renamed, if_neg h]

@[simp] theorem renamed_blockEnumerator :
    (b.renamed path newpath).blockEnumerator = b.blockEnumerator := by
  rw [CacheBlock.renamed]
  split <;> rfl

theorem renamed_self (h : path = newpath) : b.renamed path newpath = b := by
  by_cases hb : b.path = some path
  · rw [renamed_of_eq hb, ← h, ← hb]
  · exact renamed_of_ne hb

/-- A path that is neither of the two leads where it did, unless it lies below the old one. -/
theorem node_of_other (hr : t.rename path newpath = some t') (hp : p ≠ path) (hn : p ≠ newpath)
    (hbelow : ¬Below path p) (hnode : t.node p ≠ none) : t'.node p = t.node p := by
  obtain ⟨-, ⟨-, rfl⟩ | ⟨-, hm, rfl⟩⟩ := FileTree.rename_cases hr
  · rfl
  · refine FileTree.move_other hm (fun hw ↦ ?_) fun hw ↦ hw.elim hp hbelow
    exact hnode (hm.nothing_below (hw.resolve_left hn))

/-- The new path leads to the file that the old one led to. -/
theorem node_newpath (hr : t.rename path newpath = some t') (hne : path ≠ newpath) :
    t'.node newpath = t.node path := by
  obtain ⟨-, ⟨hsame, rfl⟩ | ⟨-, hm, rfl⟩⟩ := FileTree.rename_cases hr
  · obtain ⟨i, h1, h2⟩ := (FileTree.sameFile_iff.mp hsame).resolve_left hne
    rw [h1, h2]
  · exact FileTree.move_newpath hm

/-- Only a file replaces a file. -/
theorem file_of_newpath {j : ℕ} (hr : t.rename path newpath = some t') (hne : path ≠ newpath)
    (hj : t.node newpath = some (.file j)) : ∃ i, t.node path = some (.file i) := by
  obtain ⟨-, ⟨hsame, rfl⟩ | ⟨-, hm, rfl⟩⟩ := FileTree.rename_cases hr
  · obtain ⟨i, h1, -⟩ := (FileTree.sameFile_iff.mp hsame).resolve_left hne
    exact ⟨i, h1⟩
  · exact hm.file_of_file hj

/-- Below the old path, nothing that there was is left. -/
theorem node_below (hr : t.rename path newpath = some t') (hne : path ≠ newpath)
    (hp : Below path p) (hnode : t.node p ≠ none) : t'.node p = none := by
  obtain ⟨hexists, ⟨hsame, rfl⟩ | ⟨-, hm, rfl⟩⟩ := FileTree.rename_cases hr
  · obtain ⟨i, h1, -⟩ := (FileTree.sameFile_iff.mp hsame).resolve_left hne
    have hdir := t'.parents path p hp hnode
    rw [h1] at hdir
    cases hdir
  · exact FileTree.move_below hm hne hexists hp

instance : Std.Symm Apart := ⟨fun _ _ h hpath heq hnum ↦ h (heq ▸ hpath) heq.symm hnum.symm⟩

instance : Std.Symm fun b b' : CacheBlock ↦
    Apart (b.renamed path newpath) (b'.renamed path newpath) :=
  ⟨fun _ _ h ↦ symm h⟩

/-- The slots a rename changes keep apart from the others. -/
theorem renamed_apart (hpath : b.path = some path) (hpath' : b'.path = some newpath)
    (h : Apart (b.renamed path newpath) (b'.renamed path newpath)) (hne : path ≠ newpath) :
    b.blockEnumerator ≠ b'.blockEnumerator := by
  have hother : b'.path ≠ some path := fun heq ↦ hne (Option.some.inj (heq.symm.trans hpath'))
  rw [renamed_of_eq hpath, renamed_of_ne hother] at h
  exact h (by simp) hpath'.symm

/-- What a rename must not find in the cache. -/
theorem Named.keepsNames (h : Named cfg content t c) (hr : t.rename path newpath = some t')
    (hne : path ≠ newpath)
    (h' : Named cfg content t' (c.map (CacheBlock.renamed path newpath))) :
    KeepsNames cfg content t c path newpath := by
  have hmem : ∀ b ∈ c, b.renamed path newpath ∈ c.map (CacheBlock.renamed path newpath) :=
    fun b hb ↦ List.mem_map_of_mem hb
  refine ⟨fun b hb b' hb' hpath hpath' ↦ ?_, fun b hb hpath i j k hi hj hk ↦ ?_,
    fun b hb p hpath hbelow ↦ ?_⟩
  · have hbb' : b ≠ b' := by
      rintro rfl
      exact hne (Option.some.inj (hpath.symm.trans hpath'))
    have hapart := (List.pairwise_map.mp h'.apart).forall hb hb' hbb'
    exact renamed_apart hpath hpath' hapart hne
  · have hother : b.renamed path newpath = b :=
      renamed_of_ne fun heq ↦ hne (Option.some.inj (heq.symm.trans hpath))
    have hb' := hmem b hb
    rw [hother] at hb'
    obtain ⟨i', k', hi', hk', hdata'⟩ := h'.holds b hb' newpath hpath
    obtain ⟨j', k'', hj', hk'', hdata⟩ := h.holds b hb newpath hpath
    rw [node_newpath hr hne, hi] at hi'
    rw [hj] at hj'
    cases hi'
    cases hj'
    obtain rfl : k' = k := by omega
    obtain rfl : k'' = k' := by omega
    rw [← hdata', hdata]
  · have hother : b.renamed path newpath = b :=
      renamed_of_ne fun heq ↦ hbelow.ne (Option.some.inj (hpath.symm.trans heq))
    have hb' := hmem b hb
    rw [hother] at hb'
    obtain ⟨i, k, hi, -, -⟩ := h.holds b hb p hpath
    obtain ⟨i', k', hi', -, -⟩ := h'.holds b hb' p hpath
    rw [node_below hr hne hbelow (by simp [hi])] at hi'
    cases hi'

/-- A slot holds its block after a rename too. -/
theorem KeepsNames.holds (hk : KeepsNames cfg content t c path newpath)
    (h : Named cfg content t c) (hr : t.rename path newpath = some t') (hne : path ≠ newpath)
    (hb : b ∈ c) : HoldsBlock cfg content t' (b.renamed path newpath) := by
  by_cases hpath : b.path = some path
  · intro p hp
    rw [renamed_of_eq hpath] at hp ⊢
    obtain rfl : newpath = p := Option.some.inj hp
    obtain ⟨i, k, hi, hrest⟩ := h.holds b hb path hpath
    exact ⟨i, k, (node_newpath hr hne).trans hi, hrest⟩
  · rw [renamed_of_ne hpath]
    intro p hp
    obtain ⟨j, k, hj, hnum, hdata⟩ := h.holds b hb p hp
    by_cases hnew : p = newpath
    · -- the file is replaced by one with the same block
      subst hnew
      obtain ⟨i, hi⟩ := file_of_newpath hr hne hj
      refine ⟨i, k, (node_newpath hr hne).trans hi, hnum, ?_⟩
      rw [hdata, hk.same b hb hp i j k hi hj hnum]
    · have hother : p ≠ path := fun heq ↦ hpath (heq ▸ hp)
      have hnode := node_of_other hr hother hnew (hk.below b hb p hp) (by simp [hj])
      exact ⟨j, k, hnode.trans hj, hnum, hdata⟩

/-- Two slots are apart after a rename too. -/
theorem KeepsNames.renamed (hk : KeepsNames cfg content t c path newpath) (hb : b ∈ c)
    (hb' : b' ∈ c) (h : Apart b b') :
    Apart (b.renamed path newpath) (b'.renamed path newpath) := by
  intro hne heq
  rw [renamed_blockEnumerator, renamed_blockEnumerator]
  by_cases hpath : b.path = some path <;> by_cases hpath' : b'.path = some path
  · exact h (by simp [hpath]) (hpath.trans hpath'.symm)
  · rw [renamed_of_eq hpath, renamed_of_ne hpath'] at heq
    exact hk.apart b hb b' hb' hpath heq.symm
  · rw [renamed_of_ne hpath, renamed_of_eq hpath'] at heq
    exact (hk.apart b' hb' b hb hpath' heq).symm
  · rw [renamed_of_ne hpath] at heq hne
    rw [renamed_of_ne hpath'] at heq
    exact h hne heq

/-- **A rename keeps the names of the blocks exactly if it meets none that go wrong.** -/
theorem Named.rename_iff (h : Named cfg content t c) (hr : t.rename path newpath = some t') :
    Named cfg content t' (c.map (CacheBlock.renamed path newpath)) ↔
      path = newpath ∨ KeepsNames cfg content t c path newpath := by
  constructor
  · intro h'
    exact or_iff_not_imp_left.mpr fun hne ↦ h.keepsNames hr hne h'
  · intro hk
    by_cases hne : path = newpath
    · have hid : c.map (CacheBlock.renamed path newpath) = c :=
        (List.map_congr_left fun b _ ↦ renamed_self hne).trans (List.map_id c)
      obtain ⟨-, ⟨-, rfl⟩ | ⟨hsame, -⟩⟩ := FileTree.rename_cases hr
      · rwa [hid]
      · simp [FileTree.sameFile, hne] at hsame
    · have hk := hk.resolve_left hne
      refine ⟨fun b hb ↦ ?_, List.pairwise_map.mpr ?_⟩
      · obtain ⟨b₀, hb₀, rfl⟩ := List.mem_map.mp hb
        exact hk.holds h hr hne hb₀
      · exact h.apart.imp_of_mem fun hb hb' hapart ↦ hk.renamed hb hb' hapart

/-! ## Sequences of renames -/

theorem renameStep_error {s s' : FileTree × Cache} {e : Rename} (he : e.error ≠ none)
    (h : renameStep s e = some s') : s' = s := by
  obtain ⟨errno, herr⟩ := Option.ne_none_iff_exists'.mp he
  rw [renameStep, herr] at h
  exact (Option.some.inj h).symm

theorem renameStep_none {s s' : FileTree × Cache} {e : Rename} (he : e.error = none)
    (h : renameStep s e = some s') : s.1.rename e.path e.newpath = some s'.1 ∧
      s'.2 = s.2.map (CacheBlock.renamed e.path e.newpath) := by
  rw [renameStep, if_pos he, he] at h
  obtain ⟨t', hr, rfl⟩ := Option.map_eq_some_iff.mp h
  exact ⟨hr, rfl⟩

/-- The calls that keep the names are the harmless ones. -/
theorem Named.step_iff {s s' : FileTree × Cache} {e : Rename} (h : Named cfg content s.1 s.2)
    (hstep : renameStep s e = some s') :
    Named cfg content s'.1 s'.2 ↔ e.Harmless cfg content s := by
  by_cases he : e.error = none
  · obtain ⟨hr, hc⟩ := renameStep_none he hstep
    rw [hc, h.rename_iff hr, Rename.Harmless, or_iff_right (not_not.mpr he)]
  · rw [renameStep_error he hstep]
    exact iff_of_true h (.inl he)

/-- **The sequences of renames that keep every slot of the cache what its path and number say**, and
no block there twice. -/
theorem always_named_iff (h : Named cfg content t c) (es : List Rename) :
    Run.Always renameStep (fun s : FileTree × Cache ↦ Named cfg content s.1 s.2) (t, c) es ↔
      Run.Meets renameStep (fun s e ↦ e.Harmless cfg content s) (t, c) es := by
  refine Run.always_iff_meets (I := fun s : FileTree × Cache ↦ Named cfg content s.1 s.2) ?_
    (fun _ hs ↦ hs) ?_ h
  · intro s e s' hs he hstep
    exact (hs.step_iff hstep).mpr he
  · intro s e s' hs hstep hs'
    exact (hs.step_iff hstep).mp hs'

/-- The files `/a`, `/b` and `/d/x`. -/
def sampleTree : FileTree :=
  .ofEntries [([], .dir), ([47, 97], .file 0), ([47, 98], .file 1), ([47, 100], .dir),
    ([47, 100, 47, 120], .file 2)] (by decide) (by decide)

/-- What is in them. -/
def sampleContent : ℕ → List UInt8
  | 0 => [120, 121]
  | _ => [122, 119]

/-- A cache with the only block of the file at this path. -/
def cacheOf (path : Path) : Cache := [⟨some path, [122, 119], 1, 1⟩, ⟨none, [], 0, 0⟩]

theorem cacheOf_named {i : ℕ} (h : sampleTree.node p = some (.file (i + 1))) :
    Named sampleConfig sampleContent sampleTree (cacheOf p) := by
  constructor
  · intro b hb q hq
    rw [cacheOf, List.mem_pair] at hb
    rcases hb with rfl | rfl
    · obtain rfl : p = q := Option.some.inj hq
      exact ⟨i + 1, 0, h, rfl, rfl⟩
    · cases hq
  · simp [cacheOf, Apart]

/-- The file `/b` is in the cache, and gets another name. -/
theorem cacheOf_always_named :
    Run.Always renameStep
      (fun s : FileTree × Cache ↦ Named sampleConfig sampleContent s.1 s.2)
      (sampleTree, cacheOf [47, 98]) [⟨[47, 98], [47, 99], none⟩] := by
  refine (always_named_iff (cacheOf_named (i := 0) rfl) _).mpr fun _ _ ↦
    ⟨.inr (.inr ?_), trivial⟩
  constructor
  · simp [cacheOf]
  · simp [cacheOf]
  · simp [cacheOf, Below]

/-- The file `/a` replaces `/b`, or the directory `/d` gets another name. -/
theorem exists_not_named :
    (∃ t', Named sampleConfig sampleContent sampleTree (cacheOf [47, 98]) ∧
      sampleTree.rename [47, 97] [47, 98] = some t' ∧
      ¬Named sampleConfig sampleContent t'
        (cachingRename none [47, 97] [47, 98] (cacheOf [47, 98])).2) ∧
    ∃ t', Named sampleConfig sampleContent sampleTree (cacheOf [47, 100, 47, 120]) ∧
      sampleTree.rename [47, 100] [47, 101] = some t' ∧
      ¬Named sampleConfig sampleContent t'
        (cachingRename none [47, 100] [47, 101] (cacheOf [47, 100, 47, 120])).2 := by
  have h1 : sampleTree.Movable [47, 97] [47, 98] := by decide
  have h2 : sampleTree.Movable [47, 100] [47, 101] := by decide
  refine ⟨⟨sampleTree.move h1, cacheOf_named (i := 0) rfl, ?_, fun h ↦ ?_⟩,
    ⟨sampleTree.move h2, cacheOf_named (i := 1) rfl, ?_, fun h ↦ ?_⟩⟩
  · rw [FileTree.rename, if_neg (by decide), if_neg (by decide), dif_pos h1]
  · obtain ⟨i, k, hi, hk, hdata⟩ := h.holds _ (List.mem_cons_self ..) _ rfl
    obtain rfl : 0 = i := Node.file.inj (Option.some.inj hi)
    have hk : (1 : ℤ) = k + 1 := hk
    obtain rfl : k = 0 := by omega
    exact absurd hdata (by decide)
  · rw [FileTree.rename, if_neg (by decide), if_neg (by decide), dif_pos h2]
  · obtain ⟨i, k, hi, hk, hdata⟩ := h.holds _ (List.mem_cons_self ..) _ rfl
    cases hi

end CachingFs
