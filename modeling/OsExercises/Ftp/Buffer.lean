import OsExercises.ForMathlib.CLib

/-!
# Messages

What both programs make of the bytes they exchange.  A text is received into a buffer of zeros and
read as a C string.

* `buffer` is the memory at a receive buffer: what was received, the zeros after it, and what lies
  behind it.
* `cString_buffer` says that a text shorter than the buffer is read as it was sent.
-/

set_option autoImplicit false

namespace Ftp

open CLib

/-- `BUFF_SIZE`, of both programs. -/
def buffSize : ℕ := 1024

/-- `SUCCESS`, of both programs. -/
def success : ℤ := 0

/-- `ERROR`, the server's answer to a size over its limit. -/
def error : ℤ := 1

/-- The memory at a receive buffer: the bytes received, the zeros of `new char[BUFF_SIZE]()` after
them, and what lies behind the buffer. -/
def buffer (l beyond : List UInt8) : List UInt8 :=
  l ++ List.replicate (buffSize - l.length) 0 ++ beyond

/-- A buffer that is not full holds a NUL after what was received. -/
theorem buffer_eq {l : List UInt8} (hlen : l.length < buffSize) (beyond : List UInt8) :
    ∃ m, buffer l beyond = l ++ 0 :: m := by
  obtain ⟨k, hk⟩ : ∃ k, buffSize - l.length = k + 1 := ⟨buffSize - l.length - 1, by omega⟩
  refine ⟨List.replicate k 0 ++ beyond, ?_⟩
  rw [buffer, hk, List.replicate_succ, List.append_assoc, List.cons_append]

/-- A text that does not fill the buffer is read as it was sent. -/
theorem cString_buffer {l : List UInt8} (hl : 0 ∉ l) (hlen : l.length < buffSize)
    (beyond : List UInt8) : cString (buffer l beyond) = l := by
  obtain ⟨m, hm⟩ := buffer_eq hlen beyond
  rw [hm, cString_append hl]
  simp [cString]

/-- No more is read from a buffer than was received, unless that filled the buffer. -/
theorem length_cString_buffer_le {l : List UInt8} (hlen : l.length < buffSize)
    (beyond : List UInt8) : (cString (buffer l beyond)).length ≤ l.length := by
  obtain ⟨m, hm⟩ := buffer_eq hlen beyond
  rw [hm]
  exact length_cString_append_zero_le l m

/-- All of a text without NUL is read. -/
theorem length_le_cString_buffer {l : List UInt8} (hl : 0 ∉ l) (beyond : List UInt8) :
    l.length ≤ (cString (buffer l beyond)).length := by
  rw [buffer, List.append_assoc, cString_append hl, List.length_append]
  exact Nat.le_add_right _ _

end Ftp
