import Mathlib.Data.List.Basic
import Mathlib.Data.Nat.Notation

/-!
# Least frequently used

A cache of a fixed number of slots, each of them empty or with a key and the number of times it was
used.  A key that is not there replaces the first of the slots that were used least, an empty one
counting as never used.

* `Lfu.access` is the use of a key, and `Lfu.rekey` gives the slots other keys.
* `Lfu.victim_eq` says which slot is replaced.
* `Lfu.victim_empty`: no slot is replaced while there is an empty one.
-/

set_option autoImplicit false

namespace Lfu

universe u

variable {κ : Type u}

/-- A slot: empty, or a key and how often it was used since it was put there. -/
abbrev Slot (κ : Type u) := Option (κ × ℕ)

/-- How often the key in a slot was used. -/
def uses : Slot κ → ℕ
  | none => 0
  | some (_, n) => n

/-- One more use. -/
def useSlot : Slot κ → Slot κ := Option.map (Prod.map id (· + 1))

/-- The first of the slots that were used least. -/
def victim (s : List (Slot κ)) : ℕ := s.findIdx fun x ↦ s.all fun y ↦ uses x ≤ uses y

/-- The slots with other keys. -/
def rekey (f : κ → κ) (s : List (Slot κ)) : List (Slot κ) := s.map (Option.map (Prod.map f id))

section

variable [DecidableEq κ]

/-- The first slot with this key. -/
def find (k : κ) (s : List (Slot κ)) : Option ℕ := s.findIdx? fun x ↦ x.any fun y ↦ y.1 = k

/-- The slots after a key was used. -/
def access (k : κ) (s : List (Slot κ)) : List (Slot κ) :=
  match find k s with
  | some i => s.modify i useSlot
  | none => s.set (victim s) (some (k, 1))

theorem access_of_find {k : κ} {s : List (Slot κ)} {i : ℕ} (h : find k s = some i) :
    access k s = s.modify i useSlot := by
  rw [access, h]

theorem access_of_find_none {k : κ} {s : List (Slot κ)} (h : find k s = none) :
    access k s = s.set (victim s) (some (k, 1)) := by
  rw [access, h]

end

/-! ## The slot that is replaced -/

variable {s : List (Slot κ)} {x : Slot κ} {i : ℕ}

/-- **The victim** is the only slot that was used no more than any, and less than those before. -/
theorem victim_eq (hx : getElem? s i = some x) (hle : ∀ y ∈ s, uses x ≤ uses y)
    (hlt : ∀ j < i, ∀ y, getElem? s j = some y → uses x < uses y) : victim s = i := by
  obtain ⟨hi, rfl⟩ := List.getElem?_eq_some_iff.mp hx
  refine (List.findIdx_eq hi).mpr ⟨by simpa using hle, fun j hj ↦ ?_⟩
  have hless := hlt j hj _ (List.getElem?_eq_getElem (by omega))
  rw [List.all_eq_false]
  exact ⟨_, List.getElem_mem hi, by simpa using hless⟩

/-- **No slot is replaced while there is an empty one**, if those that are filled were used. -/
theorem victim_empty (hpos : ∀ k n, some (k, n) ∈ s → 0 < n) (hnone : none ∈ s) :
    getElem? s (victim s) = some none := by
  have hlt : victim s < s.length :=
    List.findIdx_lt_length.mpr ⟨none, hnone, by simp [uses]⟩
  have hleast := List.findIdx_getElem (w := hlt)
  have hle : uses (s.get ⟨victim s, hlt⟩) ≤ 0 :=
    of_decide_eq_true (List.all_eq_true.mp hleast none hnone)
  rw [List.getElem?_eq_getElem hlt]
  match hget : s.get ⟨victim s, hlt⟩ with
  | none => exact congrArg some hget
  | some (k, n) =>
    have hn := hpos k n (hget ▸ List.get_mem ..)
    rw [hget, uses] at hle
    omega

end Lfu
