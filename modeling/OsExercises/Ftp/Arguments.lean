import OsExercises.ForMathlib.Numeral
import OsExercises.Ftp.Session

/-!
# The arguments of both programs

`main` checks its numeric arguments with `isInteger`, which looks at the first byte and at the end
pointer of `strtol`, and with `atoi`, which converts to an `int` what `strtol` returned.

* `srftp` and `clftp` are the checks of the two programs, with what the program goes on with.
* `isInteger_iff`: `isInteger` accepts decimal numerals, with any number of digits.
* `accepted_iff`: the bounds are checked modulo `2 ^ 32`, for numbers in the range of a `long`.
* `numericArguments_iff`: the arguments are accepted as they should be exactly if no number out of
  the bounds is in them modulo `2 ^ 32`.
-/

set_option autoImplicit false

namespace Ftp

open CLib

/-- An argument, as a C string. -/
abbrev Argument := List UInt8

variable {s port size : Argument} {v bound : ℤ}

/-! ## The checks -/

/-- `isInteger`, of both programs. -/
def isInteger : Argument → Bool
  | [] => false
  | b :: l => (isdigit b || b = 45 || b = 43) && (strtol (b :: l)).2 = []

/-- `!isInteger(s) || atoi(s) > 65535 || atoi(s) < 1`, of both programs. -/
def badPort (s : Argument) : Bool := !isInteger s || atoi s > 65535 || atoi s < 1

/-- `!isInteger(s) || atoi(s) <= 0`. -/
def badSize (s : Argument) : Bool := !isInteger s || atoi s ≤ 0

/-- What `srftp` starts with: the argument of `htons`, and `gMaxFileSize`. -/
structure Listening where
  port : ℕ
  maxFileSize : ℤ
  deriving DecidableEq, Repr

/-- What `clftp` starts with: the argument of `htons`, and the others. -/
structure Request where
  port : ℕ
  hostname : Argument
  file : Argument
  name : Argument
  deriving DecidableEq, Repr

/-- The conversion of an `int` to the parameter of `htons`. -/
def toUInt16 (z : ℤ) : ℕ := (z % 2 ^ 16).toNat

/-- `main` of `srftp`, up to the call of `connectToClient`; `none` is the usage message. -/
def srftp : List Argument → Option Listening
  | [_, port, size] =>
    if badPort port || badSize size then none else some ⟨toUInt16 (atoi port), atoi size⟩
  | _ => none

/-- `main` of `clftp`, up to the call of `connectToServer`; `none` is the usage message. -/
def clftp : List Argument → Option Request
  | [_, port, hostname, file, name] =>
    if badPort port then none else some ⟨toUInt16 (atoi port), hostname, file, name⟩
  | _ => none

/-- The server of `Ftp.Session`. -/
def Listening.server (l : Listening) (openable : List UInt8 → Bool) : Server :=
  ⟨l.maxFileSize.toNat, openable⟩

/-! ## What the arguments should be -/

/-- The argument is a decimal numeral whose number is a port. -/
def LegalPort (port : Argument) (v : ℤ) : Prop := Denotes port v ∧ 1 ≤ v ∧ v ≤ 65535

/-- **Both programs accept the ports**, and use the port that is denoted. -/
structure PortLaw (port : Argument) : Prop where
  srftp_iff : ∀ program size, badSize size = false →
    ((srftp [program, port, size]).isSome ↔ ∃ v, LegalPort port v)
  srftp_port : ∀ program size l v, srftp [program, port, size] = some l →
    LegalPort port v → l.port = v
  clftp_iff : ∀ program hostname file name,
    (clftp [program, port, hostname, file, name]).isSome ↔ ∃ v, LegalPort port v
  clftp_port : ∀ program hostname file name r v,
    clftp [program, port, hostname, file, name] = some r → LegalPort port v → r.port = v

/-- **The server accepts positive limits only**, and uses the number that is denoted. -/
def SizeLaw (size : Argument) : Prop :=
  ∀ program port l, srftp [program, port, size] = some l →
    ∃ v, Denotes size v ∧ 0 < v ∧ l.maxFileSize = v

/-- The argument denotes a number out of the bounds that is in them modulo `2 ^ 32`, and is a
`long`. -/
def Wraps (bound : ℤ) (s : Argument) : Prop :=
  ∃ v, Denotes s v ∧ ¬(1 ≤ v ∧ v ≤ bound) ∧ -2 ^ 63 ≤ v ∧ v < 2 ^ 63 ∧
    1 ≤ v % 2 ^ 32 ∧ v % 2 ^ 32 ≤ bound

/-! ## `isInteger` and `atoi` -/

/-- **`isInteger` accepts the decimal numerals.** -/
theorem isInteger_iff : isInteger s = true ↔ ∃ v, Denotes s v := by
  match s with
  | [] =>
    refine iff_of_false (by decide) ?_
    rintro ⟨v, hv⟩
    obtain ⟨b, l, h, -⟩ := hv.head
    exact absurd h.symm (List.cons_ne_nil b l)
  | b :: l =>
    simp only [isInteger, Bool.and_eq_true, Bool.or_eq_true, decide_eq_true_eq, or_assoc]
    constructor
    · rintro ⟨hb, hrest⟩
      exact (strtol_rest_eq_nil_iff (List.cons_ne_nil b l) (not_isspace_of_head hb)).mp hrest
    · rintro ⟨v, hv⟩
      obtain ⟨b', l', h, hb⟩ := hv.head
      obtain ⟨rfl, rfl⟩ := List.cons.inj h
      exact ⟨hb, by rw [strtol_of_denotes hv]⟩

/-- Saturated values are converted to numbers that no check accepts. -/
theorem toInt32_saturate (v : ℤ) : toInt32 (saturate v) =
    if v < -2 ^ 63 then 0 else if 2 ^ 63 ≤ v then -1 else toInt32 v := by
  have hmin : toInt32 (-2 ^ 63) = 0 := by decide
  have hmax : toInt32 (2 ^ 63 - 1) = -1 := by decide
  split_ifs with hlo hhi
  · rw [saturate, max_eq_left (by omega), hmin]
  · rw [saturate, min_eq_left (by omega), max_eq_right (by decide), hmax]
  · rw [saturate, min_eq_right (by omega), max_eq_right (by omega)]

/-- A check with a bound is one of the number modulo `2 ^ 32`. -/
theorem toInt32_saturate_mem_iff (hbound : bound < 2 ^ 31) :
    1 ≤ toInt32 (saturate v) ∧ toInt32 (saturate v) ≤ bound ↔
      -2 ^ 63 ≤ v ∧ v < 2 ^ 63 ∧ 1 ≤ v % 2 ^ 32 ∧ v % 2 ^ 32 ≤ bound := by
  obtain ⟨k, hk, hlo, hhi⟩ := toInt32_spec v
  rw [toInt32_saturate]
  split_ifs <;> omega

/-- **What passes a check with a bound.** -/
theorem accepted_iff (hbound : bound < 2 ^ 31) :
    isInteger s = true ∧ 1 ≤ atoi s ∧ atoi s ≤ bound ↔
      ∃ v, Denotes s v ∧ -2 ^ 63 ≤ v ∧ v < 2 ^ 63 ∧ 1 ≤ v % 2 ^ 32 ∧ v % 2 ^ 32 ≤ bound := by
  rw [isInteger_iff]
  constructor
  · rintro ⟨⟨v, hv⟩, hatoi⟩
    rw [atoi_of_denotes hv, toInt32_saturate_mem_iff hbound] at hatoi
    exact ⟨v, hv, hatoi⟩
  · rintro ⟨v, hv, hmod⟩
    rw [atoi_of_denotes hv, toInt32_saturate_mem_iff hbound]
    exact ⟨⟨v, hv⟩, hmod⟩

/-- A number in the bounds is used as it is. -/
theorem atoi_eq (hv : Denotes s v) (hpos : 1 ≤ v) (hlt : v < 2 ^ 31) : atoi s = v := by
  obtain ⟨k, hk, hlo, hhi⟩ := toInt32_spec v
  rw [atoi_of_denotes hv, toInt32_saturate]
  split_ifs <;> omega

/-- **A check accepts what it should** exactly if the number does not wrap into the bounds. -/
theorem accepted_iff_legal_iff (hbound : bound < 2 ^ 31) :
    (isInteger s = true ∧ 1 ≤ atoi s ∧ atoi s ≤ bound ↔ ∃ v, Denotes s v ∧ 1 ≤ v ∧ v ≤ bound) ↔
      ¬Wraps bound s := by
  rw [accepted_iff hbound]
  constructor
  · rintro h ⟨v, hv, hnot, hmod⟩
    obtain ⟨w, hw, hin⟩ := h.mp ⟨v, hv, hmod⟩
    rw [hw.unique hv] at hin
    exact hnot hin
  · intro hwraps
    constructor
    · rintro ⟨v, hv, hmod⟩
      exact ⟨v, hv, by_contra fun hnot ↦ hwraps ⟨v, hv, hnot, hmod⟩⟩
    · rintro ⟨v, hv, hpos, hle⟩
      exact ⟨v, hv, by omega⟩

theorem badPort_eq_false_iff :
    badPort s = false ↔ isInteger s = true ∧ 1 ≤ atoi s ∧ atoi s ≤ 65535 := by
  simp only [badPort, Bool.or_eq_false_iff, Bool.not_eq_false', decide_eq_false_iff_not, not_lt,
    gt_iff_lt]
  tauto

theorem badSize_eq_false_iff :
    badSize s = false ↔ isInteger s = true ∧ 1 ≤ atoi s ∧ atoi s ≤ 2 ^ 31 - 1 := by
  obtain ⟨k, hk, hlo, hhi⟩ := toInt32_spec (strtol s).1
  have hmax : atoi s ≤ 2 ^ 31 - 1 := by
    rw [atoi]
    omega
  simp only [badSize, Bool.or_eq_false_iff, Bool.not_eq_false', decide_eq_false_iff_not, not_le]
  exact and_congr_right fun _ ↦ ⟨fun h ↦ ⟨h, hmax⟩, fun h ↦ h.1⟩

/-! ## The programs -/

theorem srftp_eq_some_iff {program : Argument} {l : Listening} :
    srftp [program, port, size] = some l ↔
      badPort port = false ∧ badSize size = false ∧ l = ⟨toUInt16 (atoi port), atoi size⟩ := by
  simp only [srftp]
  cases badPort port <;> cases badSize size <;> simp [eq_comm]

theorem clftp_eq_some_iff {program hostname file name : Argument} {r : Request} :
    clftp [program, port, hostname, file, name] = some r ↔
      badPort port = false ∧ r = ⟨toUInt16 (atoi port), hostname, file, name⟩ := by
  simp only [clftp]
  cases badPort port <;> simp [eq_comm]

theorem isSome_srftp_iff {program : Argument} (hsize : badSize size = false) :
    (srftp [program, port, size]).isSome ↔ badPort port = false := by
  rw [Option.isSome_iff_exists]
  exact ⟨fun ⟨_, h⟩ ↦ (srftp_eq_some_iff.mp h).1,
    fun h ↦ ⟨_, srftp_eq_some_iff.mpr ⟨h, hsize, rfl⟩⟩⟩

theorem isSome_clftp_iff {program hostname file name : Argument} :
    (clftp [program, port, hostname, file, name]).isSome ↔ badPort port = false := by
  rw [Option.isSome_iff_exists]
  exact ⟨fun ⟨_, h⟩ ↦ (clftp_eq_some_iff.mp h).1, fun h ↦ ⟨_, clftp_eq_some_iff.mpr ⟨h, rfl⟩⟩⟩

/-- The limit of the server of `Ftp.Session` is the one that was accepted. -/
theorem maxFileSize_server {argv : List Argument} {l : Listening} (h : srftp argv = some l)
    (openable : List UInt8 → Bool) : ((l.server openable).maxFileSize : ℤ) = l.maxFileSize := by
  match argv, h with
  | [_, port, size], h =>
    obtain ⟨-, hsize, rfl⟩ := srftp_eq_some_iff.mp h
    obtain ⟨-, hpos, -⟩ := badSize_eq_false_iff.mp hsize
    have hnonneg : 0 ≤ atoi size := by omega
    exact Int.toNat_of_nonneg hnonneg

/-- A legal port is the one that `htons` gets. -/
theorem LegalPort.toUInt16_atoi (h : LegalPort port v) : (toUInt16 (atoi port) : ℤ) = v := by
  obtain ⟨hv, hpos, hle⟩ := h
  rw [atoi_eq hv hpos (by omega), toUInt16]
  omega

theorem portLaw_iff : PortLaw port ↔ ¬Wraps 65535 port := by
  rw [← accepted_iff_legal_iff (by decide), ← badPort_eq_false_iff]
  constructor
  · intro h
    have hclftp := h.clftp_iff [] [] [] []
    rwa [isSome_clftp_iff] at hclftp
  · intro h
    refine ⟨fun _ _ hsize ↦ (isSome_srftp_iff hsize).trans h, ?_,
      fun _ _ _ _ ↦ isSome_clftp_iff.trans h, ?_⟩
    · intro _ _ l v hl hv
      rw [(srftp_eq_some_iff.mp hl).2.2]
      exact hv.toUInt16_atoi
    · intro _ _ _ _ r v hr hv
      rw [(clftp_eq_some_iff.mp hr).2]
      exact hv.toUInt16_atoi

theorem sizeLaw_iff : SizeLaw size ↔ ¬Wraps (2 ^ 31 - 1) size := by
  have hbound : (2 ^ 31 - 1 : ℤ) < 2 ^ 31 := by decide
  constructor
  · rintro h ⟨v, hv, hnot, hmod⟩
    have hsize : badSize size = false :=
      badSize_eq_false_iff.mpr ((accepted_iff hbound).mpr ⟨v, hv, hmod⟩)
    have hport : badPort [49] = false := by decide
    obtain ⟨w, hw, hpos, hatoi⟩ := h [] [49] _ (srftp_eq_some_iff.mpr ⟨hport, hsize, rfl⟩)
    have hle : atoi size ≤ 2 ^ 31 - 1 := (badSize_eq_false_iff.mp hsize).2.2
    have hatoi : atoi size = w := hatoi
    rw [hw.unique hv] at hpos hatoi
    exact hnot ⟨by omega, by omega⟩
  · intro h program port l hl
    obtain ⟨-, hsize, rfl⟩ := srftp_eq_some_iff.mp hl
    rw [badSize_eq_false_iff] at hsize
    obtain ⟨v, hv, hpos, hle⟩ := ((accepted_iff_legal_iff hbound).mpr h).mp hsize
    exact ⟨v, hv, hpos, atoi_eq hv hpos (by omega)⟩

/-- **The numeric arguments are accepted as they should be**, and used, exactly if they denote no
number out of the bounds that is in them modulo `2 ^ 32`. -/
theorem numericArguments_iff (port size : Argument) :
    (PortLaw port ↔ ¬Wraps 65535 port) ∧ (SizeLaw size ↔ ¬Wraps (2 ^ 31 - 1) size) :=
  ⟨portLaw_iff, sizeLaw_iff⟩

/-- The text 4294967297 is accepted by both programs, as the port 1. -/
theorem exists_not_portLaw : ¬∀ port size : Argument, PortLaw port ∧ SizeLaw size := by
  intro h
  have hdigits : ([52, 50, 57, 52, 57, 54, 55, 50, 57, 55] : Argument).all isdigit := by decide
  have hnumber : numberOf [52, 50, 57, 52, 57, 54, 55, 50, 57, 55] = 4294967297 := by decide
  have hport : Denotes [52, 50, 57, 52, 57, 54, 55, 50, 57, 55] 4294967297 := by
    have hplain := Denotes.plain _ (List.cons_ne_nil _ _) (List.all_eq_true.mp hdigits)
    rwa [hnumber] at hplain
  have haccepted :
      (clftp [[], [52, 50, 57, 52, 57, 54, 55, 50, 57, 55], [], [], []]).isSome = true := by decide
  obtain ⟨v, hv, -, hle⟩ := ((h _ []).1.clftp_iff [] [] [] []).mp haccepted
  rw [hv.unique hport] at hle
  exact absurd hle (by decide)

end Ftp
