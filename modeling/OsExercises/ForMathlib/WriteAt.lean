import Mathlib.Data.List.Basic

/-!
# Writing at a position

A file is a list of cells.  Writing at a position replaces the cells there, makes the file longer
where it has to, and fills the gap when it starts behind the end.

* `WriteAt.getElem?_writeAt` says what every cell holds afterwards.
* `WriteAt.writeAt_eq_self_iff`: a write changes nothing exactly if the file holds it already.
-/

set_option autoImplicit false

universe u

namespace WriteAt

variable {α : Type u} {z : α} {l d : List α} {k p : ℕ}

/-- `l` with `d` written at position `k`, where `z` fills a gap. -/
def writeAt (z : α) (l : List α) (k : ℕ) (d : List α) : List α :=
  l.take k ++ List.replicate (k - l.length) z ++ d ++ l.drop (k + d.length)

/-- What is kept of the start, and the gap, reach up to the position. -/
theorem length_take_append_replicate (z : α) (l : List α) (k : ℕ) :
    (l.take k ++ List.replicate (k - l.length) z).length = k := by
  rw [List.length_append, List.length_take, List.length_replicate]
  omega

theorem length_writeAt (z : α) (l : List α) (k : ℕ) (d : List α) :
    (writeAt z l k d).length = max l.length (k + d.length) := by
  rw [writeAt, List.length_append, List.length_append, length_take_append_replicate,
    List.length_drop]
  omega

/-- Writing at the end appends. -/
theorem writeAt_length (z : α) (l d : List α) : writeAt z l l.length d = l ++ d := by
  have hdrop : l.drop (l.length + d.length) = [] := List.drop_eq_nil_of_le (Nat.le_add_right _ _)
  rw [writeAt, List.take_length, Nat.sub_self, List.replicate_zero, hdrop, List.append_nil,
    List.append_nil]

/-- **What every cell holds after a write**: what was written there, what it has held before, or
what fills the gap. -/
theorem getElem?_writeAt (z : α) (l : List α) (k : ℕ) (d : List α) (p : ℕ) :
    (writeAt z l k d)[p]? =
      if k ≤ p ∧ p < k + d.length then d[p - k]?
      else if p < k ∧ l.length ≤ p then some z
      else l[p]? := by
  have hstart := length_take_append_replicate z l k
  by_cases hp : p < k
  · have hp' : ¬(k ≤ p ∧ p < k + d.length) := fun h ↦ absurd h.1 (Nat.not_le.mpr hp)
    have hlt : p < (l.take k ++ List.replicate (k - l.length) z).length := by rwa [hstart]
    rw [if_neg hp', writeAt, List.append_assoc, List.getElem?_append_left hlt]
    by_cases hc : l.length ≤ p
    · have hlen : (l.take k).length = l.length := by
        rw [List.length_take]
        omega
      rw [if_pos ⟨hp, hc⟩, List.getElem?_append_right (by omega), hlen,
        List.getElem?_replicate_of_lt (by omega)]
    · have hlen : p < (l.take k).length := by
        rw [List.length_take]
        omega
      rw [if_neg fun h ↦ hc h.2, List.getElem?_append_left hlen, List.getElem?_take_of_lt hp]
  · have hp' : ¬(p < k ∧ l.length ≤ p) := fun h ↦ hp h.1
    rw [if_neg hp', writeAt, List.append_assoc, List.getElem?_append_right (by omega), hstart]
    by_cases hd : p < k + d.length
    · rw [if_pos ⟨by omega, hd⟩, List.getElem?_append_left (by omega)]
    · rw [if_neg fun h ↦ hd h.2, List.getElem?_append_right (by omega), List.getElem?_drop]
      congr 1
      omega

/-- **A write changes nothing exactly if the file holds it already.** -/
theorem writeAt_eq_self_iff (hd : d ≠ []) :
    writeAt z l k d = l ↔ (l.drop k).take d.length = d := by
  have hpos : 0 < d.length := List.length_pos_of_ne_nil hd
  constructor
  · intro h
    have hlen := length_writeAt z l k d
    rw [h] at hlen
    refine List.ext_getElem? fun i ↦ ?_
    by_cases hi : i < d.length
    · have hcell := getElem?_writeAt z l k d (k + i)
      rw [h, if_pos ⟨Nat.le_add_right k i, by omega⟩, Nat.add_sub_cancel_left] at hcell
      rw [List.getElem?_take_of_lt hi, List.getElem?_drop, hcell]
    · rw [List.getElem?_eq_none (by rw [List.length_take]; omega),
        List.getElem?_eq_none (Nat.not_lt.mp hi)]
  · intro h
    have hlen := congrArg List.length h
    rw [List.length_take, List.length_drop] at hlen
    refine List.ext_getElem? fun p ↦ ?_
    rw [getElem?_writeAt]
    split_ifs with hin hgap
    · have hcell := congrArg (fun l' : List α ↦ l'[p - k]?) h
      simp only [List.getElem?_take_of_lt (show p - k < d.length by omega),
        List.getElem?_drop] at hcell
      rw [← hcell, Nat.add_sub_cancel' hin.1]
    · omega
    · rfl

end WriteAt
