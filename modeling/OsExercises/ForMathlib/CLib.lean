import Mathlib.Data.List.Basic
import Mathlib.Data.List.TakeWhile
import Mathlib.Tactic.IntervalCases

/-!
# C strings and decimal numbers

Text in memory is a list of bytes, and C reads it up to the first NUL.

* `CLib.cString` is the C string at a place in memory.
* `CLib.strtol` and `CLib.atoi` follow the C library: leading blanks, a sign, digits, the value
  saturated to the range of `long`, and then the conversion to a 32-bit `int`.
* `CLib.decimal` prints a number, and `CLib.atoi_decimal` says that `atoi` reads it back.
-/

set_option autoImplicit false

namespace CLib

/-! ## C strings -/

/-- The C string that starts where this memory starts. -/
def cString (memory : List UInt8) : List UInt8 := memory.takeWhile (· ≠ 0)

theorem cString_append {l m : List UInt8} (hl : 0 ∉ l) :
    cString (l ++ m) = l ++ cString m := by
  refine List.takeWhile_append_of_pos fun b hb ↦ ?_
  exact decide_eq_true fun h ↦ hl (h ▸ hb)

/-- All of a text without NUL is read. -/
theorem cString_of_notMem {l : List UInt8} (hl : 0 ∉ l) : cString l = l := by
  simpa [cString] using cString_append (m := []) hl

theorem zero_notMem_cString (memory : List UInt8) : 0 ∉ cString memory := by
  intro h
  simpa using List.mem_takeWhile_imp h

/-- Nothing is cut off exactly if there is no NUL. -/
theorem cString_eq_self_iff {memory : List UInt8} : cString memory = memory ↔ 0 ∉ memory := by
  refine ⟨fun h ↦ ?_, cString_of_notMem⟩
  have hnul := zero_notMem_cString memory
  rwa [h] at hnul

theorem length_cString_append_zero_le (l m : List UInt8) :
    (cString (l ++ 0 :: m)).length ≤ l.length := by
  induction l with
  | nil => simp [cString]
  | cons b l ih =>
    rw [List.cons_append, cString, List.takeWhile_cons]
    split
    · exact Nat.succ_le_succ ih
    · exact Nat.zero_le _

/-! ## Numbers -/

/-- `isspace`, in the C locale. -/
def isspace (b : UInt8) : Bool := b = 32 ∨ 9 ≤ b ∧ b ≤ 13

/-- `isdigit`. -/
def isdigit (b : UInt8) : Bool := 48 ≤ b ∧ b ≤ 57

/-- The number the digits at the start of a text denote, and the text after them. -/
def scanDigits (n : ℕ) : List UInt8 → ℕ × List UInt8
  | [] => (n, [])
  | b :: l => if isdigit b then scanDigits (10 * n + (b.toNat - 48)) l else (n, b :: l)

/-- The sign at the start of a text, and the text after it. -/
def scanSign : List UInt8 → Bool × List UInt8
  | [] => (false, [])
  | b :: l => if b = 45 then (true, l) else if b = 43 then (false, l) else (false, b :: l)

/-- The value a `long` takes for an integer out of its range. -/
def saturate (z : ℤ) : ℤ := max (-2 ^ 63) (min (2 ^ 63 - 1) z)

/-- `strtol` in base 10: the value, and the text at the end pointer. -/
def strtol (s : List UInt8) : ℤ × List UInt8 :=
  let (neg, t) := scanSign (s.dropWhile isspace)
  if t.head?.any isdigit then
    let (n, rest) := scanDigits 0 t
    (saturate (if neg then -n else n), rest)
  else (0, s)

/-- The conversion of a wider integer to a 32-bit `int`. -/
def toInt32 (z : ℤ) : ℤ := z.bmod (2 ^ 32)

/-- `atoi`. -/
def atoi (s : List UInt8) : ℤ := toInt32 (strtol s).1

/-- The decimal digits of a number. -/
def digits (n : ℕ) : List UInt8 := (Nat.toDigits 10 n).map fun c ↦ UInt8.ofNat c.toNat

/-- `std::to_string` of an integer. -/
def decimal (z : ℤ) : List UInt8 :=
  if z < 0 then 45 :: digits z.natAbs else digits z.natAbs

/-! ## Conversions -/

/-- A conversion to `int` changes a number by a multiple of `2 ^ 32`. -/
theorem toInt32_spec (z : ℤ) :
    ∃ k, toInt32 z = z + k * 2 ^ 32 ∧ -2 ^ 31 ≤ toInt32 z ∧ toInt32 z < 2 ^ 31 := by
  have hlo := Int.le_bmod (x := z) (m := 2 ^ 32) (by decide)
  have hhi := Int.bmod_lt (x := z) (m := 2 ^ 32) (by decide)
  obtain ⟨k, hk⟩ := Int.dvd_self_sub_bmod (x := z) (m := 2 ^ 32)
  refine ⟨-k, ?_, ?_, ?_⟩ <;> rw [toInt32] <;> omega

theorem toInt32_of_lt {n : ℕ} (hn : n < 2 ^ 31) : toInt32 n = n := by
  obtain ⟨k, hk, hlo, hhi⟩ := toInt32_spec n
  omega

/-- The `++` of an `int`. -/
theorem toInt32_add_one (z : ℤ) : toInt32 (toInt32 z + 1) = toInt32 (z + 1) :=
  Int.bmod_add_bmod

/-- Numbers that are not far apart are not confused by the conversion. -/
theorem toInt32_ne {m n : ℕ} (hlt : m < n) (hle : n < m + 2 ^ 32) : toInt32 m ≠ n := by
  obtain ⟨k, hk, hlo, hhi⟩ := toInt32_spec m
  omega

/-- The conversion of a number that is not negative. -/
theorem toInt32_natCast (n : ℕ) :
    toInt32 n = if n % 2 ^ 32 < 2 ^ 31 then ((n % 2 ^ 32 : ℕ) : ℤ)
      else ((n % 2 ^ 32 : ℕ) : ℤ) - 2 ^ 32 := by
  obtain ⟨k, hk, hlo, hhi⟩ := toInt32_spec n
  split <;> omega

theorem toInt32_natCast_le (n : ℕ) : toInt32 n ≤ n := by
  obtain ⟨k, hk, hlo, hhi⟩ := toInt32_spec n
  omega

/-! ## What was printed is read back -/

theorem digits_eq (n : ℕ) :
    digits n = (if n < 10 then [] else digits (n / 10)) ++ [UInt8.ofNat (48 + n % 10)] := by
  have hlast : ∀ d < 10, UInt8.ofNat (Nat.digitChar d).toNat = UInt8.ofNat (48 + d) := by
    intro d hd
    interval_cases d <;> rfl
  rw [digits, Nat.toDigits_eq_if (by decide)]
  split
  case isTrue hn => simp [hlast n hn, Nat.mod_eq_of_lt hn]
  case isFalse => simp [digits, hlast (n % 10) (Nat.mod_lt _ (by decide))]

theorem isdigit_ofNat {d : ℕ} (hd : d < 10) : isdigit (UInt8.ofNat (48 + d)) := by
  interval_cases d <;> rfl

theorem isdigit_of_mem_digits {n : ℕ} {b : UInt8} (hb : b ∈ digits n) : isdigit b := by
  induction n using Nat.strong_induction_on with
  | _ n ih =>
    rw [digits_eq, List.mem_append, List.mem_singleton] at hb
    rcases hb with hb | rfl
    · split at hb
      · cases hb
      · exact ih (n / 10) (by omega) hb
    · exact isdigit_ofNat (Nat.mod_lt _ (by decide))

theorem digits_ne_nil (n : ℕ) : digits n ≠ [] := by
  rw [digits_eq]
  exact List.append_ne_nil_of_right_ne_nil _ (List.cons_ne_nil _ _)

/-- The decimal digits of a number are not more than the number says, unless it is zero. -/
theorem length_digits_le (n : ℕ) : (digits n).length ≤ max 1 n := by
  induction n using Nat.strong_induction_on with
  | _ n ih =>
    rw [digits_eq, List.length_append]
    split
    · simp
    · have := ih (n / 10) (by omega)
      simp only [List.length_singleton]
      omega

theorem length_digits_le_of_lt_pow {n k : ℕ} (hn : n < 10 ^ k) : (digits n).length ≤ max 1 k := by
  rw [digits, List.length_map]
  rcases Nat.eq_zero_or_pos k with rfl | hk
  · have : n = 0 := by simpa using hn
    subst this
    decide
  · exact ((Nat.length_toDigits_le_iff (by decide) hk).mpr hn).trans (le_max_right 1 k)

theorem scanDigits_append {l : List UInt8} (hl : ∀ b ∈ l, isdigit b) (n : ℕ) (r : List UInt8) :
    scanDigits n (l ++ r) = scanDigits (scanDigits n l).1 r := by
  induction l generalizing n with
  | nil => rfl
  | cons b l ih =>
    have hb : isdigit b := hl b List.mem_cons_self
    rw [List.cons_append, scanDigits, scanDigits, if_pos hb, if_pos hb]
    exact ih (fun c hc ↦ hl c (List.mem_cons_of_mem _ hc)) _

theorem scanDigits_digits (n : ℕ) : scanDigits 0 (digits n) = (n, []) := by
  have hlast : ∀ m d, d < 10 → scanDigits m [UInt8.ofNat (48 + d)] = (10 * m + d, []) := by
    intro m d hd
    rw [scanDigits, if_pos (isdigit_ofNat hd), scanDigits]
    have : (UInt8.ofNat (48 + d)).toNat = 48 + d := by
      simp
      omega
    rw [this, Nat.add_sub_cancel_left]
  induction n using Nat.strong_induction_on with
  | _ n ih =>
    rw [digits_eq]
    split
    case isTrue hn =>
      rw [List.nil_append, hlast 0 _ (Nat.mod_lt _ (by decide)), Nat.mod_eq_of_lt hn]
      simp
    case isFalse hn =>
      rw [scanDigits_append fun b hb ↦ isdigit_of_mem_digits hb, ih (n / 10) (by omega),
        hlast _ _ (Nat.mod_lt _ (by decide)), Nat.div_add_mod]

theorem not_isspace_of_isdigit {b : UInt8} (hb : isdigit b) : isspace b = false := by
  simp only [isdigit, isspace, decide_eq_true_eq, decide_eq_false_iff_not] at hb ⊢
  simp only [UInt8.le_iff_toNat_le, ← UInt8.toNat_inj] at hb ⊢
  simp at hb ⊢
  omega

theorem scanSign_of_isdigit {b : UInt8} {l : List UInt8} (hb : isdigit b) :
    scanSign (b :: l) = (false, b :: l) := by
  simp only [isdigit, decide_eq_true_eq] at hb
  rw [scanSign, if_neg, if_neg]
  · rintro rfl
    revert hb
    decide
  · rintro rfl
    revert hb
    decide

theorem strtol_digits (n : ℕ) : strtol (digits n) = (saturate n, []) := by
  obtain ⟨b, l, hbl⟩ := List.exists_cons_of_ne_nil (digits_ne_nil n)
  have hb : isdigit b := isdigit_of_mem_digits (n := n) (hbl ▸ List.mem_cons_self)
  have hscan := scanDigits_digits n
  rw [hbl] at hscan ⊢
  rw [strtol, List.dropWhile_cons_of_neg (by simp [not_isspace_of_isdigit hb]),
    scanSign_of_isdigit hb]
  simp [hb, hscan]

/-- **`atoi` reads back what `to_string` printed.** -/
theorem atoi_decimal {n : ℕ} (hn : n < 2 ^ 31) : atoi (decimal n) = n := by
  have hsat : saturate n = n := by
    rw [saturate]
    omega
  rw [atoi, decimal, if_neg (by omega), Int.natAbs_natCast, strtol_digits, hsat,
    toInt32_of_lt hn]

theorem decimal_natCast (n : ℕ) : decimal n = digits n := by
  rw [decimal, if_neg (by omega), Int.natAbs_natCast]

/-- Two numbers are not printed alike. -/
theorem decimal_natCast_inj {m n : ℕ} : decimal m = decimal n ↔ m = n := by
  refine ⟨fun h ↦ ?_, fun h ↦ h ▸ rfl⟩
  have hscan : scanDigits 0 (decimal m) = scanDigits 0 (decimal n) := congrArg _ h
  rw [decimal_natCast, decimal_natCast, scanDigits_digits, scanDigits_digits] at hscan
  exact congrArg Prod.fst hscan

theorem decimal_natCast_ne_nil (n : ℕ) : decimal n ≠ [] := decimal_natCast n ▸ digits_ne_nil n

theorem zero_notMem_decimal (n : ℕ) : 0 ∉ decimal n := by
  intro h
  rw [decimal_natCast] at h
  exact absurd (isdigit_of_mem_digits h) (by decide)

end CLib
