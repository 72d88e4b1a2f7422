import Mathlib.Data.Nat.Digits.Defs
import OsExercises.ForMathlib.CLib

/-!
# Decimal numerals

Which texts `strtol` and `atoi` read as a number from the first byte to the last one, and what they
make of it.

* `CLib.Denotes` says that a text is a decimal numeral, and which number it denotes: a sum of powers
  of ten, whatever its size.
* `CLib.strtol_of_denotes`: `strtol` reads all of a numeral, and saturates the number.
* `CLib.strtol_rest_eq_nil_iff`: it reads all of nothing else, blanks apart.
* `CLib.atoi_of_denotes`: what `atoi` makes of a numeral.
-/

set_option autoImplicit false

namespace CLib

variable {s t : List UInt8} {v w : ℤ}

/-! ## Numerals -/

/-- The number that decimal digits denote. -/
def numberOf (ds : List UInt8) : ℕ := Nat.ofDigits 10 (ds.reverse.map fun b ↦ b.toNat - 48)

/-- **A decimal numeral** and its number: an optional sign, and one or more decimal digits. -/
inductive Denotes : List UInt8 → ℤ → Prop
  | plain (ds : List UInt8) (hne : ds ≠ []) (hds : ∀ b ∈ ds, isdigit b) : Denotes ds (numberOf ds)
  | plus (ds : List UInt8) (hne : ds ≠ []) (hds : ∀ b ∈ ds, isdigit b) :
    Denotes (43 :: ds) (numberOf ds)
  | minus (ds : List UInt8) (hne : ds ≠ []) (hds : ∀ b ∈ ds, isdigit b) :
    Denotes (45 :: ds) (-numberOf ds)

theorem numberOf_cons (b : UInt8) (ds : List UInt8) :
    numberOf (b :: ds) = (b.toNat - 48) * 10 ^ ds.length + numberOf ds := by
  rw [numberOf, List.reverse_cons, List.map_append, List.map_singleton, Nat.ofDigits_append,
    Nat.ofDigits_singleton, List.length_map, List.length_reverse, ← numberOf, Nat.add_comm,
    Nat.mul_comm]

/-- All the digits are scanned, and they mean what they denote. -/
theorem scanDigits_eq {ds : List UInt8} (hds : ∀ b ∈ ds, isdigit b) (n : ℕ) :
    scanDigits n ds = (n * 10 ^ ds.length + numberOf ds, []) := by
  induction ds generalizing n with
  | nil => simp [scanDigits, numberOf]
  | cons b ds ih =>
    have hb : isdigit b := hds b List.mem_cons_self
    have hvalue : (10 * n + (b.toNat - 48)) * 10 ^ ds.length + numberOf ds =
        n * 10 ^ (ds.length + 1) + ((b.toNat - 48) * 10 ^ ds.length + numberOf ds) := by ring
    rw [scanDigits, if_pos hb, ih fun c hc ↦ hds c (List.mem_cons_of_mem _ hc), hvalue,
      ← numberOf_cons, List.length_cons]

theorem scanDigits_zero {ds : List UInt8} (hds : ∀ b ∈ ds, isdigit b) :
    scanDigits 0 ds = (numberOf ds, []) := by
  rw [scanDigits_eq hds, Nat.zero_mul, Nat.zero_add]

/-- Only digits are scanned. -/
theorem isdigit_of_scanDigits {n : ℕ} (h : (scanDigits n t).2 = []) : ∀ b ∈ t, isdigit b := by
  induction t generalizing n with
  | nil => exact nofun
  | cons b t ih =>
    rw [scanDigits] at h
    split at h
    case isTrue hb => exact List.forall_mem_cons.mpr ⟨hb, ih h⟩
    case isFalse => exact absurd h (List.cons_ne_nil b t)

/-! ## `strtol` -/

/-- The text behind a sign is read if it starts with a digit. -/
theorem strtol_eq (hs : s.head?.any isspace = false) : strtol s =
    if (scanSign s).2.head?.any isdigit then
      (saturate (if (scanSign s).1 then -(scanDigits 0 (scanSign s).2).1
        else (scanDigits 0 (scanSign s).2).1), (scanDigits 0 (scanSign s).2).2)
    else (0, s) := by
  have hdrop : s.dropWhile isspace = s := by
    match s with
    | [] => rfl
    | b :: l => exact List.dropWhile_cons_of_neg (by simpa using hs)
  rw [strtol, hdrop]

/-- A text is a sign, if it has one, and what is behind it. -/
theorem scanSign_cases (s : List UInt8) :
    scanSign s = (false, s) ∨ s = 43 :: (scanSign s).2 ∨ s = 45 :: (scanSign s).2 := by
  match s with
  | [] => exact .inl rfl
  | b :: l =>
    by_cases hminus : b = 45
    · exact .inr (.inr (by rw [scanSign, if_pos hminus, hminus]))
    · by_cases hplus : b = 43
      · exact .inr (.inl (by rw [scanSign, if_neg hminus, if_pos hplus, hplus]))
      · exact .inl (by rw [scanSign, if_neg hminus, if_neg hplus])

/-- A numeral starts with a sign or a digit. -/
theorem Denotes.head (h : Denotes s v) :
    ∃ b l, s = b :: l ∧ (isdigit b = true ∨ b = 45 ∨ b = 43) := by
  obtain ⟨ds, hne, hds⟩ | ⟨ds, -, -⟩ | ⟨ds, -, -⟩ := h
  · obtain ⟨b, l, rfl⟩ := List.exists_cons_of_ne_nil hne
    exact ⟨b, l, rfl, .inl (hds b List.mem_cons_self)⟩
  · exact ⟨43, ds, rfl, .inr (.inr rfl)⟩
  · exact ⟨45, ds, rfl, .inr (.inl rfl)⟩

theorem not_isspace_of_head {b : UInt8} (hb : isdigit b = true ∨ b = 45 ∨ b = 43) :
    isspace b = false := by
  rcases hb with hb | rfl | rfl
  · exact not_isspace_of_isdigit hb
  · decide
  · decide

/-- The sign of a numeral and its digits are scanned. -/
theorem Denotes.scanned (h : Denotes s v) : ∃ neg ds, scanSign s = (neg, ds) ∧ ds ≠ [] ∧
    (∀ b ∈ ds, isdigit b) ∧ v = if neg then -(numberOf ds : ℤ) else numberOf ds := by
  obtain ⟨ds, hne, hds⟩ | ⟨ds, hne, hds⟩ | ⟨ds, hne, hds⟩ := h
  · obtain ⟨b, l, rfl⟩ := List.exists_cons_of_ne_nil hne
    exact ⟨false, b :: l, scanSign_of_isdigit (hds b List.mem_cons_self), hne, hds, rfl⟩
  · have hsign : scanSign (43 :: ds) = (false, ds) := by
      rw [scanSign, if_neg (by decide), if_pos rfl]
    exact ⟨false, ds, hsign, hne, hds, rfl⟩
  · have hsign : scanSign (45 :: ds) = (true, ds) := by rw [scanSign, if_pos rfl]
    exact ⟨true, ds, hsign, hne, hds, rfl⟩

/-- A numeral denotes one number only. -/
theorem Denotes.unique (hv : Denotes s v) (hw : Denotes s w) : v = w := by
  obtain ⟨neg, ds, hsign, -, -, rfl⟩ := hv.scanned
  obtain ⟨neg', ds', hsign', -, -, rfl⟩ := hw.scanned
  obtain ⟨rfl, rfl⟩ := Prod.mk.inj (hsign.symm.trans hsign')
  rfl

/-- **`strtol` reads a numeral to its end**, and saturates the number. -/
theorem strtol_of_denotes (h : Denotes s v) : strtol s = (saturate v, []) := by
  have hspace : s.head?.any isspace = false := by
    obtain ⟨b, l, rfl, hb⟩ := h.head
    exact not_isspace_of_head hb
  obtain ⟨neg, ds, hsign, hne, hds, rfl⟩ := h.scanned
  have hhead : ds.head?.any isdigit = true := by
    obtain ⟨b, l, rfl⟩ := List.exists_cons_of_ne_nil hne
    exact hds b List.mem_cons_self
  rw [strtol_eq hspace, hsign]
  dsimp only
  rw [if_pos hhead, scanDigits_zero hds]

/-- **`strtol` reads nothing but numerals to the end**, when there are no blanks in front. -/
theorem strtol_rest_eq_nil_iff (hne : s ≠ []) (hs : s.head?.any isspace = false) :
    (strtol s).2 = [] ↔ ∃ v, Denotes s v := by
  constructor
  · intro h
    rw [strtol_eq hs] at h
    split at h
    case isTrue hhead =>
      have hds := isdigit_of_scanDigits h
      have hne' : (scanSign s).2 ≠ [] := by
        intro hnil
        rw [hnil] at hhead
        exact absurd hhead (by decide)
      rcases scanSign_cases s with hsign | hsign | hsign
      · rw [hsign] at hds
        exact ⟨_, .plain s hne hds⟩
      · rw [hsign]
        exact ⟨_, .plus _ hne' hds⟩
      · rw [hsign]
        exact ⟨_, .minus _ hne' hds⟩
    case isFalse => exact absurd h hne
  · rintro ⟨v, hv⟩
    rw [strtol_of_denotes hv]

/-- What `atoi` makes of a numeral. -/
theorem atoi_of_denotes (h : Denotes s v) : atoi s = toInt32 (saturate v) := by
  rw [atoi, strtol_of_denotes h]

end CLib
