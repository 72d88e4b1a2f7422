import Mathlib.Order.Bounds.Basic
import Mathlib.Data.Int.Order.Basic

/-!
# The first number a sorted list skips

A list of numbers in use, sorted, has its least unused number at the first place where it does not
continue `i, i + 1, i + 2, …`.  `firstGap i l` walks the list to that place.  The walk itself needs
no assumption to see that everything below its answer is in use (`mem_of_lt_firstGap`); that the
answer is not in use is where the list has to be sorted without repetition (`firstGap_notMem`).
-/

set_option autoImplicit false

/-- The first number from `i` on that the list does not continue with. -/
def firstGap (i : ℤ) : List ℤ → ℤ
  | [] => i
  | k :: ks => if k = i then firstGap (i + 1) ks else i

theorem le_firstGap (i : ℤ) (l : List ℤ) : i ≤ firstGap i l := by
  induction l generalizing i with
  | nil => exact le_rfl
  | cons k ks ih =>
    rw [firstGap]
    split
    · have := ih (i + 1)
      omega
    · exact le_rfl

/-- The walk takes at most one step for each element. -/
theorem firstGap_le_add_length (i : ℤ) (l : List ℤ) : firstGap i l ≤ i + l.length := by
  induction l generalizing i with
  | nil => simp [firstGap]
  | cons k ks ih =>
    have hle := ih (i + 1)
    rw [firstGap, List.length_cons]
    split <;> push_cast <;> omega

theorem mem_of_lt_firstGap {i j : ℤ} {l : List ℤ} (hij : i ≤ j) (hj : j < firstGap i l) :
    j ∈ l := by
  induction l generalizing i with
  | nil =>
    rw [firstGap] at hj
    omega
  | cons k ks ih =>
    rw [firstGap] at hj
    split at hj
    · subst k
      rcases eq_or_lt_of_le hij with rfl | hlt
      · exact List.mem_cons_self
      · exact List.mem_cons_of_mem _ (ih (by omega) hj)
    · omega

theorem firstGap_notMem {i : ℤ} {l : List ℤ} (hl : l.Pairwise (· < ·)) (hi : ∀ k ∈ l, i ≤ k) :
    firstGap i l ∉ l := by
  induction l generalizing i with
  | nil => exact List.not_mem_nil
  | cons k ks ih =>
    obtain ⟨hk, hks⟩ := List.pairwise_cons.mp hl
    rw [firstGap]
    split
    · subst k
      have hlt := le_firstGap (i + 1) ks
      refine List.not_mem_cons_of_ne_of_not_mem (by omega) (ih hks fun j hj ↦ ?_)
      have := hk j hj
      omega
    · rename_i hne
      have hik : i < k := lt_of_le_of_ne (hi k List.mem_cons_self) (Ne.symm hne)
      refine List.not_mem_cons_of_ne_of_not_mem (by omega) fun hmem ↦ ?_
      have := hk i hmem
      omega

/-- **The walk finds the least unused number.** -/
theorem isLeast_firstGap {i : ℤ} {l : List ℤ} (hl : l.Pairwise (· < ·)) (hi : ∀ k ∈ l, i ≤ k) :
    IsLeast {j | i ≤ j ∧ j ∉ l} (firstGap i l) := by
  refine ⟨⟨le_firstGap i l, firstGap_notMem hl hi⟩, fun j ⟨hij, hj⟩ ↦ ?_⟩
  by_contra hlt
  exact hj (mem_of_lt_firstGap hij (by omega))
