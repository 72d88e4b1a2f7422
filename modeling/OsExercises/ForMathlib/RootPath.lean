import Mathlib.Data.List.Nodup
import Mathlib.Data.List.Infix

/-!
# Paths to a root

A forest in which every node points to its father, or to nothing if it is a root, is a function
`next : α → Option α`.  `RootPath next a l` says that `l` is the list of nodes on the way from `a`
to a root.  There is at most one such list, it has no node twice, and so it is no longer than the
list of all nodes: this bounds a loop that walks up the forest.
-/

set_option autoImplicit false

universe u

variable {α : Type u}

/-- `l` is the way from `a` to a root, both included. -/
inductive RootPath (next : α → Option α) : α → List α → Prop
  | root {a : α} (h : next a = none) : RootPath next a [a]
  | cons {a b : α} {l : List α} (h : next a = some b) (hl : RootPath next b l) :
    RootPath next a (a :: l)

namespace RootPath

variable {next next' : α → Option α} {a b x y : α} {l l' : List α}

theorem mem_self (h : RootPath next a l) : a ∈ l := by
  cases h with
  | root => exact List.mem_cons_self
  | cons => exact List.mem_cons_self

/-- The way is determined by where it starts. -/
theorem unique (h : RootPath next a l) (h' : RootPath next a l') : l = l' := by
  induction h generalizing l' with
  | root hn =>
    cases h' with
    | root => rfl
    | cons hs => simp [hn] at hs
  | cons hs _ ih =>
    cases h' with
    | root hn => simp [hn] at hs
    | cons hs' hl' =>
      cases hs.symm.trans hs'
      rw [ih hl']

/-- The way ends at a root. -/
theorem exists_getLast (h : RootPath next a l) : ∃ r, l.getLast? = some r ∧ next r = none := by
  induction h with
  | root hn => exact ⟨_, rfl, hn⟩
  | cons hs hl ih =>
    obtain ⟨r, hr, hrn⟩ := ih
    exact ⟨r, by rw [List.getLast?_cons, hr]; rfl, hrn⟩

/-- The rest of the way is the way from there. -/
theorem suffix (h : RootPath next a l) (hx : x ∈ l) : ∃ l', RootPath next x l' ∧ l' <:+ l := by
  induction h with
  | root hn =>
    cases List.mem_singleton.mp hx
    exact ⟨_, .root hn, List.suffix_rfl⟩
  | cons hs hl ih =>
    rcases List.mem_cons.mp hx with rfl | hx
    · exact ⟨_, .cons hs hl, List.suffix_rfl⟩
    · obtain ⟨l', hl', hsuf⟩ := ih hx
      exact ⟨l', hl', hsuf.trans (List.suffix_cons _ _)⟩

/-- **No node is passed twice.** -/
theorem nodup (h : RootPath next a l) : l.Nodup := by
  induction h with
  | root => exact List.nodup_singleton _
  | @cons a b l hs hl ih =>
    refine List.nodup_cons.mpr ⟨fun hmem ↦ ?_, ih⟩
    obtain ⟨l', hl', hsuf⟩ := hl.suffix hmem
    have heq := (cons hs hl).unique hl'
    have hlen := hsuf.length_le
    rw [← heq, List.length_cons] at hlen
    omega

/-- The nodes on a way are closed under going up. -/
theorem next_mem (h : RootPath next a l) (hx : x ∈ l) (hy : next x = some y) : y ∈ l := by
  induction h with
  | root hn =>
    cases List.mem_singleton.mp hx
    simp [hn] at hy
  | cons hs hl ih =>
    rcases List.mem_cons.mp hx with rfl | hx
    · cases hs.symm.trans hy
      exact List.mem_cons_of_mem _ hl.mem_self
    · exact List.mem_cons_of_mem _ (ih hx)

/-- A set that is closed under going up contains the whole way. -/
theorem subset_of_closed {S : α → Prop} (h : RootPath next a l) (ha : S a)
    (hS : ∀ x y, x ∈ l → S x → next x = some y → S y) : ∀ x ∈ l, S x := by
  induction h with
  | root => simpa using ha
  | cons hs hl ih =>
    have hrest := ih (hS _ _ List.mem_cons_self ha hs)
      fun x y hx ↦ hS x y (List.mem_cons_of_mem _ hx)
    simpa [ha] using hrest

theorem congr (h : RootPath next a l) (heq : ∀ x ∈ l, next' x = next x) : RootPath next' a l := by
  induction h with
  | root hn => exact .root ((heq _ List.mem_cons_self).trans hn)
  | cons hs hl ih =>
    exact .cons ((heq _ List.mem_cons_self).trans hs)
      (ih fun x hx ↦ heq x (List.mem_cons_of_mem _ hx))

/-- A count that goes down by one with every step up, and is zero at the roots, is the number of
steps. -/
theorem length_eq {d : α → ℤ} (h : RootPath next a l) (hroot : ∀ x ∈ l, next x = none → d x = 0)
    (hstep : ∀ x y, x ∈ l → next x = some y → d x = d y + 1) : (l.length : ℤ) = d a + 1 := by
  induction h with
  | root hn => simp [hroot _ List.mem_cons_self hn]
  | cons hs hl ih =>
    have h1 := ih (fun x hx ↦ hroot x (List.mem_cons_of_mem _ hx))
      fun x y hx ↦ hstep x y (List.mem_cons_of_mem _ hx)
    have h2 := hstep _ _ List.mem_cons_self hs
    rw [List.length_cons]
    omega

end RootPath
