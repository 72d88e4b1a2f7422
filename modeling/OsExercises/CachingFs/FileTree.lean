import OsExercises.CachingFs.Defs
import Mathlib.Data.List.Infix

/-!
# The file tree

What `rename` does to the names of files and directories.  A tree maps a path to a directory or to
the inode of a file; two paths with the same inode are hard links.

* `Below` and `Within` compare paths.
* `FileTree.rename` is the system call: it moves a file or a directory, with all that lies below,
  and replaces a file or an empty directory.  Two names of the same file are left alone.
* `FileTree.rename_cases` says when it succeeds; `FileTree.move_newpath`, `FileTree.move_other` and
  `FileTree.move_below` say where a path leads afterwards.
-/

set_option autoImplicit false

namespace CachingFs

/-! ## Paths -/

/-- The character between the parts of a path. -/
def slash : UInt8 := 47

/-- The path `q` lies below `p`. -/
def Below (p q : Path) : Prop := p ++ [slash] <+: q

instance (p q : Path) : Decidable (Below p q) := inferInstanceAs (Decidable (_ <+: _))

/-- The path `q` is `p` or lies below it. -/
def Within (p q : Path) : Prop := q = p ∨ Below p q

instance (p q : Path) : Decidable (Within p q) := inferInstanceAs (Decidable (_ ∨ _))

variable {p q r path newpath : Path}

theorem below_iff : Below p q ↔ ∃ rest, q = p ++ slash :: rest := by
  constructor
  · rintro ⟨rest, rfl⟩
    exact ⟨rest, by simp⟩
  · rintro ⟨rest, rfl⟩
    exact ⟨rest, by simp⟩

theorem within_iff : Within p q ↔ ∃ s, q = p ++ s ∧ (s = [] ∨ ∃ rest, s = slash :: rest) := by
  rw [Within, below_iff]
  constructor
  · rintro (rfl | ⟨rest, rfl⟩)
    · exact ⟨[], by simp, .inl rfl⟩
    · exact ⟨_, rfl, .inr ⟨rest, rfl⟩⟩
  · rintro ⟨s, rfl, rfl | ⟨rest, rfl⟩⟩
    · exact .inl (List.append_nil p)
    · exact .inr ⟨rest, rfl⟩

theorem Below.mem_inits (h : Below p q) : p ∈ q.inits := by
  obtain ⟨rest, rfl⟩ := below_iff.mp h
  exact (List.mem_inits _ _).mpr (List.prefix_append p _)

theorem Within.refl (p : Path) : Within p p := .inl rfl

theorem Below.ne (h : Below p q) : q ≠ p := by
  rintro rfl
  obtain ⟨rest, hrest⟩ := below_iff.mp h
  simp at hrest

theorem Within.eq_nil (h : Within p []) : p = [] := by
  obtain ⟨s, hs, -⟩ := within_iff.mp h
  exact (List.append_eq_nil_iff.mp hs.symm).1

theorem Below.trans (h : Below p q) (h' : Below q r) : Below p r := by
  obtain ⟨s, rfl⟩ := below_iff.mp h
  obtain ⟨s', rfl⟩ := below_iff.mp h'
  exact below_iff.mpr ⟨s ++ slash :: s', by simp⟩

theorem Within.trans_below (h : Within p q) (h' : Below q r) : Below p r :=
  h.elim (fun heq ↦ heq ▸ h') fun h ↦ h.trans h'

/-- **Of two paths above the same path, one is above the other.** -/
theorem Within.comparable (h : Within p r) (h' : Within q r) : Within p q ∨ Within q p := by
  obtain ⟨s, rfl, hs⟩ := within_iff.mp h
  obtain ⟨s', heq, hs'⟩ := within_iff.mp h'
  simp only [within_iff]
  rcases List.append_eq_append_iff.mp heq with ⟨u, rfl, hu⟩ | ⟨u, rfl, hu⟩
  · refine .inl ⟨u, rfl, ?_⟩
    match u with
    | [] => exact .inl rfl
    | a :: u =>
      rcases hs with rfl | ⟨rest, rfl⟩
      · simp at hu
      · rw [List.cons_append, List.cons.injEq] at hu
        exact .inr ⟨u, by rw [hu.1]⟩
  · refine .inr ⟨u, rfl, ?_⟩
    match u with
    | [] => exact .inl rfl
    | a :: u =>
      rcases hs' with rfl | ⟨rest, rfl⟩
      · simp at hu
      · rw [List.cons_append, List.cons.injEq] at hu
        exact .inr ⟨u, by rw [hu.1]⟩

/-- Where a path is after what is at `path` has moved to `newpath`. -/
def movePath (path newpath q : Path) : Path :=
  if Within path q then newpath ++ q.drop path.length else q

/-! ## Trees -/

/-- What a path leads to. -/
inductive Node
  | dir
  | file (inode : ℕ)
  deriving DecidableEq, Repr

/-- The names of the files and directories; the root is the empty path.  What has something below it
is a directory. -/
structure FileTree where
  node : Path → Option Node
  /-- All names, and maybe others. -/
  names : List Path
  complete : ∀ p, node p ≠ none → p ∈ names
  root : node [] = some .dir
  parents : ∀ p q, Below p q → node q ≠ none → node p = some .dir

variable {t t' : FileTree}

theorem mem_of_lookup {entries : List (Path × Node)} (h : List.lookup p entries ≠ none) :
    p ∈ entries.map Prod.fst := by
  by_contra hnot
  refine h (List.lookup_eq_none_iff.mpr fun e he ↦ bne_iff_ne.mpr ?_)
  rintro rfl
  exact hnot (List.mem_map_of_mem he)

/-- The tree with these names. -/
def FileTree.ofEntries (entries : List (Path × Node)) (root : List.lookup [] entries = some .dir)
    (parents : ∀ q ∈ entries.map Prod.fst, ∀ p ∈ q.inits, Below p q →
      List.lookup p entries = some .dir) : FileTree where
  node := fun p ↦ List.lookup p entries
  names := entries.map Prod.fst
  complete := fun _ hp ↦ mem_of_lookup hp
  root := root
  parents := fun p q hpq hq ↦ parents q (mem_of_lookup hq) p hpq.mem_inits hpq

/-- The two names are the same, or hard links to the same file. -/
def FileTree.sameFile (t : FileTree) (path newpath : Path) : Bool :=
  path = newpath || t.node path = t.node newpath &&
    match t.node path with
    | some (.file _) => true
    | _ => false

/-- What is at `newpath`, if anything, can be replaced by what is at `path`: a file by a file, and
an empty directory by a directory. -/
def FileTree.replaceable (t : FileTree) (path newpath : Path) : Bool :=
  match t.node path, t.node newpath with
  | none, _ => false
  | some _, none => true
  | some (.file _), some (.file _) => true
  | some .dir, some .dir => t.names.all fun q ↦ !(Below newpath q ∧ t.node q ≠ none)
  | _, _ => false

/-- What is at `path` can be moved to `newpath`. -/
structure FileTree.Movable (t : FileTree) (path newpath : Path) : Prop where
  /-- The root is not moved. -/
  path_ne : path ≠ []
  /-- Nor replaced. -/
  newpath_ne : newpath ≠ []
  /-- A directory does not get below itself. -/
  not_below : ¬Below path newpath
  /-- What is at the new path can be replaced. -/
  replaceable : t.replaceable path newpath = true
  /-- The new path is in a directory. -/
  parents : ∀ p ∈ newpath.inits, Below p newpath → t.node p = some .dir

instance (t : FileTree) (path newpath : Path) : Decidable (t.Movable path newpath) :=
  decidable_of_iff (path ≠ [] ∧ newpath ≠ [] ∧ ¬Below path newpath ∧
      t.replaceable path newpath = true ∧
      ∀ p ∈ newpath.inits, Below p newpath → t.node p = some .dir)
    ⟨fun ⟨h1, h2, h3, h4, h5⟩ ↦ ⟨h1, h2, h3, h4, h5⟩, fun ⟨h1, h2, h3, h4, h5⟩ ↦
      ⟨h1, h2, h3, h4, h5⟩⟩

/-- Where a path leads after what was at `path` has moved to `newpath`. -/
def FileTree.movedNode (t : FileTree) (path newpath q : Path) : Option Node :=
  if Within newpath q then t.node (path ++ q.drop newpath.length)
  else if Within path q then none
  else t.node q

theorem FileTree.Movable.parent (h : t.Movable path newpath) (hp : Below p newpath) :
    t.node p = some .dir :=
  h.parents p hp.mem_inits hp

/-- The rest of a path within another one stays the same when that one moves. -/
theorem within_append (h : Within p q) (r : Path) : Within r (r ++ q.drop p.length) := by
  obtain ⟨s, rfl, hs⟩ := within_iff.mp h
  rw [List.drop_left]
  exact within_iff.mpr ⟨s, rfl, hs⟩

theorem below_append (h : Within p q) (h' : Below q r) (path : Path) :
    Below (path ++ q.drop p.length) (path ++ r.drop p.length) := by
  obtain ⟨s, rfl, -⟩ := within_iff.mp h
  obtain ⟨rest, rfl⟩ := below_iff.mp h'
  rw [List.drop_left, List.append_assoc, List.drop_left]
  exact below_iff.mpr ⟨rest, by simp⟩

/-- The tree after what was at `path` has moved to `newpath`. -/
def FileTree.move (t : FileTree) (h : t.Movable path newpath) : FileTree where
  node := t.movedNode path newpath
  names := t.names.map (movePath path newpath)
  complete := fun q hq ↦ by
    rw [List.mem_map]
    rw [movedNode] at hq
    split_ifs at hq with hnew hold
    · have hin := within_append hnew path
      refine ⟨_, t.complete _ hq, ?_⟩
      obtain ⟨s, rfl, -⟩ := within_iff.mp hnew
      rw [List.drop_left] at hin ⊢
      rw [movePath, if_pos hin, List.drop_left]
    · exact absurd rfl hq
    · exact ⟨q, t.complete q hq, by rw [movePath, if_neg hold]⟩
  root := by
    rw [movedNode, if_neg fun hw ↦ h.newpath_ne hw.eq_nil, if_neg fun hw ↦ h.path_ne hw.eq_nil]
    exact t.root
  parents := fun p q hpq hq ↦ by
    rw [movedNode] at hq
    split_ifs at hq with hnew hold
    · by_cases hp : Within newpath p
      · -- the path is still below the moved one
        have hbelow := below_append hp hpq path
        rw [movedNode, if_pos hp]
        exact t.parents _ _ hbelow hq
      · have hpn : Below p newpath := by
          rcases Within.comparable (.inr hpq) hnew with hw | hw
          · exact hw.resolve_left fun heq ↦ hp (.inl heq.symm)
          · exact absurd hw hp
        have hpath : ¬Within path p := fun hw ↦ h.not_below (hw.trans_below hpn)
        rw [movedNode, if_neg hp, if_neg hpath]
        exact h.parent hpn
    · exact absurd rfl hq
    · have hp : ¬Within newpath p := fun hw ↦ hnew (.inr (hw.trans_below hpq))
      have hpath : ¬Within path p := fun hw ↦ hold (.inr (hw.trans_below hpq))
      rw [movedNode, if_neg hp, if_neg hpath]
      exact t.parents p q hpq hq

/-- `rename`: the new tree, unless it fails. -/
def FileTree.rename (t : FileTree) (path newpath : Path) : Option FileTree :=
  if t.node path = none then none
  else if t.sameFile path newpath then some t
  else if h : t.Movable path newpath then some (t.move h)
  else none

/-! ## What a rename does -/

theorem FileTree.sameFile_iff : t.sameFile path newpath = true ↔
    path = newpath ∨ ∃ i, t.node path = some (.file i) ∧ t.node newpath = some (.file i) := by
  rw [sameFile, Bool.or_eq_true, decide_eq_true_eq]
  refine or_congr_right ?_
  rw [Bool.and_eq_true, decide_eq_true_eq]
  constructor
  · rintro ⟨heq, hfile⟩
    match h : t.node path with
    | some (.file i) => exact ⟨i, rfl, heq ▸ h⟩
    | some .dir | none => simp [h] at hfile
  · rintro ⟨i, h1, h2⟩
    simp [h1, h2]

/-- **A rename that succeeds** leaves the names of one file alone, or moves. -/
theorem FileTree.rename_cases (h : t.rename path newpath = some t') :
    t.node path ≠ none ∧ ((t.sameFile path newpath = true ∧ t' = t) ∨
      t.sameFile path newpath = false ∧ ∃ hm : t.Movable path newpath, t' = t.move hm) := by
  rw [rename] at h
  split_ifs at h with h1 h2 h3
  · exact ⟨h1, .inl ⟨h2, (Option.some.inj h).symm⟩⟩
  · exact ⟨h1, .inr ⟨by simpa using h2, h3, (Option.some.inj h).symm⟩⟩

/-- What is replaced has nothing below it. -/
theorem FileTree.Movable.nothing_below (h : t.Movable path newpath) (hq : Below newpath q) :
    t.node q = none := by
  by_contra hne
  have hdir := t.parents newpath q hq hne
  have hrep := h.replaceable
  rw [FileTree.replaceable, hdir] at hrep
  match hp : t.node path with
  | none | some (.file _) => simp [hp] at hrep
  | some .dir =>
    simp only [hp, List.all_eq_true] at hrep
    simpa [hq, hne] using hrep q (t.complete q hne)

/-- Only a file replaces a file. -/
theorem FileTree.Movable.file_of_file {j : ℕ} (h : t.Movable path newpath)
    (hj : t.node newpath = some (.file j)) : ∃ i, t.node path = some (.file i) := by
  have hrep := h.replaceable
  rw [FileTree.replaceable, hj] at hrep
  match hp : t.node path with
  | none | some .dir => simp [hp] at hrep
  | some (.file i) => exact ⟨i, rfl⟩

@[simp] theorem FileTree.move_newpath (h : t.Movable path newpath) :
    (t.move h).node newpath = t.node path := by
  change t.movedNode path newpath newpath = _
  rw [movedNode, if_pos (.refl newpath), List.drop_length, List.append_nil]

/-- What is neither the old nor the new path, nor below one of them, stays what it is. -/
theorem FileTree.move_other (h : t.Movable path newpath) (hnew : ¬Within newpath q)
    (hold : ¬Within path q) : (t.move h).node q = t.node q := by
  change t.movedNode path newpath q = _
  rw [movedNode, if_neg hnew, if_neg hold]

/-- Nothing is left below the old path. -/
theorem FileTree.move_below (h : t.Movable path newpath) (hne : path ≠ newpath)
    (hexists : t.node path ≠ none) (hq : Below path q) : (t.move h).node q = none := by
  have hnew : ¬Within newpath q := fun hw ↦ by
    rcases Within.comparable (.inr hq) hw with hw' | hw'
    · exact hw'.elim (fun heq ↦ hne heq.symm) h.not_below
    · exact hexists (h.nothing_below (hw'.resolve_left hne))
  change t.movedNode path newpath q = _
  rw [movedNode, if_neg hnew, if_pos (.inr hq)]

end CachingFs
