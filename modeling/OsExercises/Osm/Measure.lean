import Mathlib.Logic.Function.Iterate
import OsExercises.ForMathlib.CLib

/-!
# Measuring times

`ex1/osm.cpp` takes the time of many operations of one kind, and divides it by their number.  The
loop is unrolled, and executes five operations in each turn.

* A `Machine` counts the operations that were executed, and `Doubles` is the arithmetic of `double`.
* `measure` is what the three functions have in common: `osmFunctionTime`, `osmOperationTime` and
  `osmSyscallTime` differ in their operation only.
* `unrolled_eq_iterate`: how many operations the loop executes.
* `measured_iff`: for which arguments the times are averages over the operations that were executed,
  and `numberOfIterations` is their number.
-/

set_option autoImplicit false

namespace Osm

open CLib

variable {δ : Type}

/-! ## Times -/

/-- A `timeval`. -/
structure Timeval where
  sec : ℤ
  usec : ℤ
  deriving DecidableEq, Repr

/-- `timersub`. -/
def timersub (a b : Timeval) : Timeval :=
  if a.usec - b.usec < 0 then ⟨a.sec - b.sec - 1, a.usec - b.usec + 1000000⟩
  else ⟨a.sec - b.sec, a.usec - b.usec⟩

/-- The values of type `double`, and what is done with them. -/
structure Doubles (δ : Type) where
  /-- `FAILURE`. -/
  failure : δ
  /-- The comparison with `FAILURE`. -/
  isFailure : δ → Bool
  /-- The nanoseconds of a `timeval`, divided by a number. -/
  average : Timeval → ℕ → δ
  /-- A quotient, converted to an `int`. -/
  ratio : δ → δ → ℤ

/-! ## The operations -/

/-- How many operations of each kind were executed. -/
structure Machine where
  functions : ℕ
  operations : ℕ
  syscalls : ℕ
  deriving DecidableEq, Repr

/-- `someFunction`. -/
def someFunction (m : Machine) : Machine := { m with functions := m.functions + 1 }

/-- `temp = 1 & 2`. -/
def simpleOperation (m : Machine) : Machine := { m with operations := m.operations + 1 }

/-- `OSM_NULLSYSCALL`. -/
def osmNullsyscall (m : Machine) : Machine := { m with syscalls := m.syscalls + 1 }

/-! ## Measuring -/

/-- `OSM_DEFAULT_ITER`. -/
def osmDefaultIter : UInt32 := 50000

/-- `LP_UNRLNG`. -/
def lpUnrlng : UInt32 := 5

/-- `osm_iterations`, after zero was replaced. -/
def iterations (osmIterations : UInt32) : UInt32 :=
  if osmIterations ≤ 0 then osmDefaultIter else osmIterations

/-- `osm_iterations / LP_UNRLNG + remaining`. -/
def rounds (osmIterations : UInt32) : UInt32 :=
  osmIterations / lpUnrlng + if osmIterations % lpUnrlng ≠ 0 then 1 else 0

/-- The unrolled loop, from the counter `i` on. -/
def unrolled (op : Machine → Machine) (bound i : UInt32) (m : Machine) : Machine :=
  if i < bound then unrolled op bound (i + 1) (op (op (op (op (op m))))) else m
termination_by bound.toNat - i.toNat
decreasing_by
  have hlt : i.toNat < bound.toNat := UInt32.lt_iff_toNat_lt.mp ‹_›
  have hbound := bound.toNat_lt
  rw [UInt32.toNat_add, UInt32.toNat_one, Nat.mod_eq_of_lt (by omega)]
  omega

/-- What the three functions have in common.  `gettimeofday` returns these times, or fails. -/
def measure (D : Doubles δ) (op : Machine → Machine) (osmIterations : UInt32)
    (before after : Option Timeval) (m : Machine) : δ × Machine :=
  match before with
  | none => (D.failure, m)
  | some before =>
    let m := unrolled op (rounds (iterations osmIterations)) 0 m
    match after with
    | none => (D.failure, m)
    | some after =>
      (D.average (timersub after before) (iterations osmIterations).toNat, m)

/-- `osm_function_time`. -/
def osmFunctionTime (D : Doubles δ) (osmIterations : UInt32) (before after : Option Timeval)
    (m : Machine) : δ × Machine :=
  measure D someFunction osmIterations before after m

/-- `osm_operation_time`. -/
def osmOperationTime (D : Doubles δ) (osmIterations : UInt32) (before after : Option Timeval)
    (m : Machine) : δ × Machine :=
  measure D simpleOperation osmIterations before after m

/-- `osm_syscall_time`. -/
def osmSyscallTime (D : Doubles δ) (osmIterations : UInt32) (before after : Option Timeval)
    (m : Machine) : δ × Machine :=
  measure D osmNullsyscall osmIterations before after m

/-- `timeMeasurmentStructure`. -/
structure TimeMeasurment (δ : Type) where
  machineName : List UInt8
  numberOfIterations : ℤ
  instructionTimeNanoSecond : δ
  functionTimeNanoSecond : δ
  trapTimeNanoSecond : δ
  functionInstructionRatio : ℤ
  trapInstructionRatio : ℤ

/-- The times between which the operations of one kind are executed. -/
abbrev Readings := Option Timeval × Option Timeval

/-- The ratio of two times, or `FAILURE` if one of them could not be measured. -/
def ratio (D : Doubles δ) (time instructionTime : δ) : ℤ :=
  if !D.isFailure instructionTime && !D.isFailure time then D.ratio time instructionTime else -1

/-- `measureTimes`.  `gethostname` returns a name, or fails. -/
def measureTimes (D : Doubles δ) (osmIterations : UInt32) (hostname : Option (List UInt8))
    (functions operations syscalls : Readings) (m : Machine) : TimeMeasurment δ × Machine :=
  let (functionTime, m) := osmFunctionTime D osmIterations functions.1 functions.2 m
  let (instructionTime, m) := osmOperationTime D osmIterations operations.1 operations.2 m
  let (trapTime, m) := osmSyscallTime D osmIterations syscalls.1 syscalls.2 m
  ({ machineName := hostname.getD []
     numberOfIterations := toInt32 (rounds osmIterations * lpUnrlng).toNat
     instructionTimeNanoSecond := instructionTime
     functionTimeNanoSecond := functionTime
     trapTimeNanoSecond := trapTime
     functionInstructionRatio := ratio D functionTime instructionTime
     trapInstructionRatio := ratio D trapTime instructionTime }, m)

/-! ## What the times should be -/

/-- The function returns an average over the operations it executes, whenever it can read the time
and whatever the arithmetic. -/
def Averages (time : ∀ δ, Doubles δ → UInt32 → Option Timeval → Option Timeval → Machine →
    δ × Machine) (count : Machine → ℕ) (n : UInt32) : Prop :=
  ∀ δ (D : Doubles δ) (before after : Timeval) (m : Machine),
    (time δ D n (some before) (some after) m).1 = D.average (timersub after before)
      (count (time δ D n (some before) (some after) m).2 - count m)

/-- Both times could be read. -/
def known (t : Timeval × Timeval) : Readings := (some t.1, some t.2)

/-- The number in the structure is that of the operations of one kind that `measureTimes` executes,
whenever it can read the time. -/
def Reports (count : Machine → ℕ) (n : UInt32) : Prop :=
  ∀ δ (D : Doubles δ) (hostname : Option (List UInt8))
    (functions operations syscalls : Timeval × Timeval) (m : Machine),
    (measureTimes D n hostname (known functions) (known operations) (known syscalls)
        m).1.numberOfIterations =
      (count (measureTimes D n hostname (known functions) (known operations) (known syscalls) m).2 -
        count m : ℕ)

/-- **The averages are over the operations really executed**, in the three functions, and their
number is reported. -/
structure Measured (n : UInt32) : Prop where
  function : Averages (fun _ ↦ osmFunctionTime) Machine.functions n
  operation : Averages (fun _ ↦ osmOperationTime) Machine.operations n
  syscall : Averages (fun _ ↦ osmSyscallTime) Machine.syscalls n
  functions : Reports Machine.functions n
  operations : Reports Machine.operations n
  syscalls : Reports Machine.syscalls n

/-! ## What is executed -/

/-- **The loop executes five operations in each turn.** -/
theorem unrolled_eq_iterate (op : Machine → Machine) (bound i : UInt32) (m : Machine) :
    unrolled op bound i m = op^[5 * (bound.toNat - i.toNat)] m := by
  fun_induction unrolled op bound i m with
  | case1 i m hi ih =>
    have hlt : i.toNat < bound.toNat := UInt32.lt_iff_toNat_lt.mp hi
    have hbound := bound.toNat_lt
    have hnext : (i + 1).toNat = i.toNat + 1 := by
      rw [UInt32.toNat_add, UInt32.toNat_one, Nat.mod_eq_of_lt (by omega)]
    have hleft : 5 * (bound.toNat - i.toNat) = 5 * (bound.toNat - (i.toNat + 1)) + 5 := by omega
    rw [ih, hnext, hleft, Function.iterate_add_apply]
    rfl
  | case2 i m hi =>
    have hle : bound.toNat ≤ i.toNat := not_lt.mp fun h ↦ hi (UInt32.lt_iff_toNat_lt.mpr h)
    rw [Nat.sub_eq_zero_of_le hle, Nat.mul_zero, Function.iterate_zero_apply]

/-- The turns of the loop: a started piece of five operations is executed as a whole. -/
theorem toNat_rounds (n : UInt32) : (rounds n).toNat = (n.toNat + 4) / 5 := by
  have hn := n.toNat_lt
  have hdiv : (n / lpUnrlng).toNat = n.toNat / 5 := UInt32.toNat_div ..
  have hmod : (n % lpUnrlng).toNat = n.toNat % 5 := UInt32.toNat_mod ..
  rw [rounds, UInt32.toNat_add, hdiv]
  split_ifs with hrem
  · have hne : (n % lpUnrlng).toNat ≠ 0 := fun h ↦ hrem (UInt32.toNat_inj.mp h)
    rw [UInt32.toNat_one]
    omega
  · rw [not_not.mp hrem, UInt32.toNat_zero] at hmod
    rw [UInt32.toNat_zero]
    omega

/-- An operation that is counted `d` times, executed again and again. -/
theorem count_iterate {op : Machine → Machine} {count : Machine → ℕ} {d : ℕ}
    (hcount : ∀ m, count (op m) = count m + d) (k : ℕ) (m : Machine) :
    count (op^[k] m) = count m + k * d := by
  induction k generalizing m with
  | zero => rw [Nat.zero_mul, Function.iterate_zero_apply, Nat.add_zero]
  | succ k ih =>
    rw [Function.iterate_succ_apply, ih, hcount, Nat.succ_mul]
    omega

/-- How many operations of its kind each function executes. -/
def executed (n : UInt32) : ℕ := 5 * (((iterations n).toNat + 4) / 5)

/-- **What a measurement does** when it can read the time. -/
theorem measure_known (D : Doubles δ) (op : Machine → Machine) (n : UInt32)
    (before after : Timeval) (m : Machine) :
    measure D op n (some before) (some after) m =
      (D.average (timersub after before) (iterations n).toNat, op^[executed n] m) := by
  rw [measure, unrolled_eq_iterate, toNat_rounds, UInt32.toNat_zero, Nat.sub_zero, executed]

theorem toNat_iterations (n : UInt32) :
    (iterations n).toNat = if n.toNat = 0 then 50000 else n.toNat := by
  by_cases hn : n = 0
  · subst hn
    decide
  · have hpos : n.toNat ≠ 0 := fun h ↦ hn (UInt32.toNat_inj.mp h)
    have hle : ¬n ≤ 0 := fun h ↦ hpos (Nat.le_zero.mp (UInt32.le_iff_toNat_le.mp h))
    rw [iterations, if_neg hle, if_neg hpos]

/-- The operations executed are those asked for if a multiple of five was. -/
theorem executed_eq_iff (n : UInt32) : executed n = (iterations n).toNat ↔ 5 ∣ n.toNat := by
  rw [executed, toNat_iterations]
  split_ifs <;> omega

/-- An arithmetic in which an average is the number that was divided by. -/
def divisor : Doubles ℕ := ⟨0, fun _ ↦ false, fun _ k ↦ k, fun _ _ ↦ 0⟩

/-- **When a time is an average** over what was executed. -/
theorem averages_iff (op : Machine → Machine) (count : Machine → ℕ)
    (hcount : ∀ m, count (op m) = count m + 1) (n : UInt32) :
    Averages (fun _ D ↦ measure D op) count n ↔ 5 ∣ n.toNat := by
  have hexecuted : ∀ {δ : Type} (D : Doubles δ) before after m,
      count (measure D op n (some before) (some after) m).2 - count m = executed n := by
    intro δ D before after m
    rw [measure_known, count_iterate hcount, Nat.mul_one, Nat.add_sub_cancel_left]
  rw [← executed_eq_iff]
  constructor
  · intro h
    have hdivisor := h ℕ divisor ⟨0, 0⟩ ⟨0, 0⟩ ⟨0, 0, 0⟩
    dsimp only at hdivisor
    rw [hexecuted, measure_known] at hdivisor
    exact hdivisor.symm
  · intro h δ D before after m
    dsimp only
    rw [hexecuted, measure_known, h]

/-! ## What is reported -/

theorem measureTimes_snd (D : Doubles δ) (n : UInt32) (hostname : Option (List UInt8))
    (functions operations syscalls : Timeval × Timeval) (m : Machine) :
    (measureTimes D n hostname (known functions) (known operations) (known syscalls) m).2 =
      osmNullsyscall^[executed n] (simpleOperation^[executed n] (someFunction^[executed n] m)) := by
  simp only [measureTimes, osmFunctionTime, osmOperationTime, osmSyscallTime, known, measure_known]

theorem numberOfIterations_measureTimes (D : Doubles δ) (n : UInt32)
    (hostname : Option (List UInt8)) (functions operations syscalls : Readings) (m : Machine) :
    (measureTimes D n hostname functions operations syscalls m).1.numberOfIterations =
      toInt32 (rounds n * lpUnrlng).toNat := by
  simp only [measureTimes]

/-- When the number that is reported is right. -/
theorem reported_eq_iff (n : UInt32) :
    toInt32 (rounds n * lpUnrlng).toNat = (executed n : ℕ) ↔
      0 < n.toNat ∧ 5 * ((n.toNat + 4) / 5) < 2 ^ 31 := by
  have hn := n.toNat_lt
  have hnumber : (rounds n * lpUnrlng).toNat = 5 * ((n.toNat + 4) / 5) := by
    have hmul : (rounds n * lpUnrlng).toNat = (rounds n).toNat * 5 % 2 ^ 32 := UInt32.toNat_mul ..
    rw [hmul, toNat_rounds]
    omega
  rw [hnumber, toInt32_natCast, executed, toNat_iterations]
  split_ifs <;> omega

/-- **When the reported number is that of the operations of one kind**: an operation of this kind is
none of another one. -/
theorem reports_iff (count : Machine → ℕ) {a b c : ℕ}
    (hfunction : ∀ m, count (someFunction m) = count m + a)
    (hoperation : ∀ m, count (simpleOperation m) = count m + b)
    (hsyscall : ∀ m, count (osmNullsyscall m) = count m + c) (hone : a + b + c = 1) (n : UInt32) :
    Reports count n ↔ 0 < n.toNat ∧ 5 * ((n.toNat + 4) / 5) < 2 ^ 31 := by
  have hcount : ∀ k m, count (osmNullsyscall^[k] (simpleOperation^[k] (someFunction^[k] m))) =
      count m + k := by
    intro k m
    rw [count_iterate hsyscall, count_iterate hoperation, count_iterate hfunction, Nat.add_assoc,
      Nat.add_assoc, ← Nat.mul_add, ← Nat.mul_add, ← Nat.add_assoc, hone, Nat.mul_one]
  rw [← reported_eq_iff]
  constructor
  · intro h
    have hreport := h ℕ divisor none (⟨0, 0⟩, ⟨0, 0⟩) (⟨0, 0⟩, ⟨0, 0⟩) (⟨0, 0⟩, ⟨0, 0⟩) ⟨0, 0, 0⟩
    rwa [numberOfIterations_measureTimes, measureTimes_snd, hcount, Nat.add_sub_cancel_left]
      at hreport
  · intro h δ D hostname functions operations syscalls m
    rwa [numberOfIterations_measureTimes, measureTimes_snd, hcount, Nat.add_sub_cancel_left]

/-! ## Which arguments are measured -/

/-- **The averages are over the operations really executed**, and their number is reported, exactly
if the argument is a positive multiple of five that an `int` can hold. -/
theorem measured_iff (n : UInt32) :
    Measured n ↔ 0 < n.toNat ∧ 5 ∣ n.toNat ∧ n.toNat < 2 ^ 31 := by
  have hfunction := averages_iff someFunction Machine.functions (fun _ ↦ rfl) n
  have hoperation := averages_iff simpleOperation Machine.operations (fun _ ↦ rfl) n
  have hsyscall := averages_iff osmNullsyscall Machine.syscalls (fun _ ↦ rfl) n
  have hfunctions := reports_iff Machine.functions (a := 1) (b := 0) (c := 0)
    (fun _ ↦ rfl) (fun _ ↦ rfl) (fun _ ↦ rfl) rfl n
  have hoperations := reports_iff Machine.operations (a := 0) (b := 1) (c := 0)
    (fun _ ↦ rfl) (fun _ ↦ rfl) (fun _ ↦ rfl) rfl n
  have hsyscalls := reports_iff Machine.syscalls (a := 0) (b := 0) (c := 1)
    (fun _ ↦ rfl) (fun _ ↦ rfl) (fun _ ↦ rfl) rfl n
  constructor
  · intro h
    have hdvd := hfunction.mp h.function
    have hreport := hfunctions.mp h.functions
    omega
  · rintro ⟨hpos, hdvd, hlt⟩
    have hreport : 0 < n.toNat ∧ 5 * ((n.toNat + 4) / 5) < 2 ^ 31 := by omega
    exact ⟨hfunction.mpr hdvd, hoperation.mpr hdvd, hsyscall.mpr hdvd, hfunctions.mpr hreport,
      hoperations.mpr hreport, hsyscalls.mpr hreport⟩

/-- For one operation, five are executed, and their time is divided by one. -/
theorem exists_not_measured : ¬∀ n, Measured n := by
  intro h
  have hdvd := (averages_iff someFunction Machine.functions (fun _ ↦ rfl) 1).mp (h 1).function
  exact absurd hdvd (by decide)

end Osm
