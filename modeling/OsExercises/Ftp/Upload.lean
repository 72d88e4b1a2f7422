import OsExercises.Ftp.Client
import OsExercises.ForMathlib.Run

/-!
# An upload to a server that accepts it

`Client::writeToServer` as one function, with the buffer that the file is read into.  The place of
the client in this code, call by call, is in `Ftp.Client`.

* `Stream` is `_toWrite`, and `sendLoop` the loop that sends the file.
* `writeToServer` is the whole function: what it returns, and the messages that were sent.
* `flatten_sendLoop`: no message is padded, and together they are what was to be sent.
* `uploaded_iff`: the whole file is uploaded exactly if the conversion of its length to an `int` is
  this length or a negative number.
* `reaches_writeToServer`: the client of `Ftp.Client` sends the same bytes.
-/

set_option autoImplicit false

namespace Ftp

open CLib

variable {u : Upload} {b : UInt8} {beyond memory : List UInt8}

/-! ## The file -/

/-- `FAIL`, of both programs. -/
def fail : ℤ := -1

/-- `_toWrite`. -/
structure Stream where
  content : List UInt8
  pos : ℕ
  /-- No read was short. -/
  good : Bool

/-- `read` of `n` bytes into a buffer, which keeps what is not read into. -/
def Stream.read (s : Stream) (n : ℕ) (buffer : List UInt8) : Stream × List UInt8 :=
  if s.good then
    let got := (s.content.drop s.pos).take n
    ({ s with pos := s.pos + got.length, good := got.length = n }, got ++ buffer.drop got.length)
  else (s, buffer)

/-- The loop over the file, and the message behind it, for an `int` that is not negative.  A message
is the start of the buffer. -/
def sendLoop (toSend : ℕ) (s : Stream) (buffer : List UInt8) : List (List UInt8) :=
  if buffSize ≤ toSend then
    let (s', buffer') := s.read buffSize buffer
    buffer'.take buffSize :: sendLoop (toSend - buffSize) s' buffer'
  else if toSend ≠ 0 then [(s.read toSend buffer).2.take toSend]
  else []
termination_by toSend
decreasing_by
  rw [buffSize] at *
  omega

/-- What a call of `writeToServer` returns, unless the process exits in it, and what it has sent. -/
structure Written where
  returned : Option ℤ
  sent : List (List UInt8)

/-- `writeToServer`, when every `send` transfers its whole buffer.  The stream is good after `open`
and after `seekg` or not, the server answers with the byte `b`, and `memory` is what the buffer
holds when it is allocated. -/
def writeToServer (opened sought : Bool) (u : Upload) (b : UInt8) (beyond memory : List UInt8) :
    Written :=
  if !opened then ⟨some fail, []⟩
  else if u.size < 0 then ⟨some fail, []⟩
  else if !sought then ⟨some fail, []⟩
  else if Client.reciveMsg b beyond then
    ⟨some success,
      decimal u.size :: u.name :: sendLoop u.size.toNat ⟨u.file, 0, true⟩ memory⟩
  else ⟨none, [decimal u.size]⟩

/-- **The whole file is uploaded, or a failure is reported**: when the call returns `SUCCESS`, the
length of the file was declared, and behind the name the file was sent. -/
def Uploaded (u : Upload) (w : Written) : Prop :=
  w.returned = some success → ∃ chunks,
    w.sent = decimal u.file.length :: u.name :: chunks ∧ chunks.flatten = u.file

/-! ## The loop -/

theorem length_take_drop {s : Stream} {n : ℕ} (hle : s.pos + n ≤ s.content.length) :
    ((s.content.drop s.pos).take n).length = n := by
  rw [List.length_take, List.length_drop]
  omega

/-- A read that is not short fills the start of the buffer. -/
theorem read_of_le {s : Stream} {n : ℕ} (hgood : s.good = true)
    (hle : s.pos + n ≤ s.content.length) (buffer : List UInt8) :
    s.read n buffer =
      (⟨s.content, s.pos + n, true⟩, (s.content.drop s.pos).take n ++ buffer.drop n) := by
  simp [Stream.read, hgood, length_take_drop hle]

/-- So this is what is sent. -/
theorem take_read_of_le {s : Stream} {n : ℕ} (hgood : s.good = true)
    (hle : s.pos + n ≤ s.content.length) (buffer : List UInt8) :
    (s.read n buffer).2.take n = (s.content.drop s.pos).take n := by
  rw [read_of_le hgood hle, List.take_left' (length_take_drop hle)]

/-- **The messages are what was to be sent**, in order and without padding, as long as there is so
much in the file. -/
theorem flatten_sendLoop {toSend : ℕ} {s : Stream} (hgood : s.good = true)
    (hle : s.pos + toSend ≤ s.content.length) (buffer : List UInt8) :
    (sendLoop toSend s buffer).flatten = (s.content.drop s.pos).take toSend := by
  induction toSend using Nat.strong_induction_on generalizing s buffer with
  | _ toSend ih =>
    rw [sendLoop]
    split_ifs with hfull hrest
    · have hbuff : 0 < buffSize := by decide
      have hle' : s.pos + buffSize ≤ s.content.length := by omega
      have hread := read_of_le hgood hle' buffer
      have htail := ih (toSend - buffSize) (by omega) (s := ⟨s.content, s.pos + buffSize, true⟩) rfl
        (by simp only; omega) ((s.content.drop s.pos).take buffSize ++ buffer.drop buffSize)
      have htake := take_read_of_le hgood hle' buffer
      rw [hread] at htake ⊢
      rw [List.flatten_cons, htail, htake, ← List.drop_drop]
      conv_rhs => rw [← Nat.add_sub_cancel' hfull, List.take_add]
    · rw [List.flatten_singleton, take_read_of_le hgood hle]
    · rw [not_not.mp hrest, List.take_zero, List.flatten_nil]

/-! ## The whole call -/

/-- What a call to a server that accepts does with a readable file. -/
theorem writeToServer_of_accepted (haccept : Client.reciveMsg b beyond = true) :
    writeToServer true true u b beyond memory =
      if u.size < 0 then ⟨some fail, []⟩
      else ⟨some success,
        decimal u.size :: u.name :: sendLoop u.size.toNat ⟨u.file, 0, true⟩ memory⟩ := by
  simp only [writeToServer, haccept, Bool.not_true, Bool.false_eq_true, if_false, if_true]

/-- The size is that of the file, unless the conversion has made it smaller. -/
theorem size_eq_iff (h : 0 ≤ u.size) : u.size = u.file.length ↔ u.file.length < 2 ^ 31 := by
  rw [Upload.size, toInt32_natCast] at *
  split at h <;> omega

theorem size_neg_iff : u.size < 0 ↔ 2 ^ 31 ≤ u.file.length % 2 ^ 32 := by
  rw [Upload.size, toInt32_natCast]
  split <;> omega

/-! ## The same client, call by call -/

/-- A step of the client with all that it has sent.  The event is what it can receive, and what lies
behind the buffer for this. -/
def Client.logged (u : Upload) (s : Client × List UInt8) (e : List UInt8 × List UInt8) :
    Option (Client × List UInt8) :=
  (s.1.step u e.1 e.2).map fun t ↦ (t.1, s.2 ++ t.2.1)

/-- The loop, one message at a time. -/
theorem reaches_sendLoop {n pos : ℕ} (hle : pos + n ≤ u.file.length) (log buffer : List UInt8) :
    Run.Reaches (Client.logged u) (⟨.data, n, pos⟩, log)
      (⟨.closed, 0, pos + n⟩, log ++ (sendLoop n ⟨u.file, pos, true⟩ buffer).flatten) := by
  rw [flatten_sendLoop rfl hle]
  induction n using Nat.strong_induction_on generalizing pos log with
  | _ n ih =>
    have hbuff : 0 < buffSize := by decide
    by_cases hfull : buffSize ≤ n
    · have hstep : Client.logged u (⟨.data, n, pos⟩, log) ([], []) =
          some (⟨.data, (n - buffSize : ℕ), pos + buffSize⟩,
            log ++ (u.file.drop pos).take buffSize) := by
        simp only [Client.logged, Client.step, Client.sendChunk, Nat.cast_le, hfull, if_true,
          Option.map_some, Int.toNat_natCast, Nat.cast_sub]
      have hle' : pos + buffSize + (n - buffSize) ≤ u.file.length := by omega
      have htail := ih (n - buffSize) (by omega) hle' (log ++ (u.file.drop pos).take buffSize)
      rw [List.append_assoc, ← List.drop_drop, ← List.take_add, Nat.add_assoc,
        Nat.add_sub_cancel' hfull] at htail
      exact ((Run.Reaches.refl _).tail hstep).trans htail
    · have hclose : ∀ pos log, Client.logged u (⟨.data, 0, pos⟩, log) ([], []) =
          some (⟨.closed, 0, pos⟩, log) := by
        intro pos log
        simp [Client.logged, Client.step, hbuff.ne']
      by_cases hrest : n = 0
      · rw [hrest, List.take_zero, List.append_nil]
        exact (Run.Reaches.refl _).tail (hclose pos log)
      · have hstep : Client.logged u (⟨.data, n, pos⟩, log) ([], []) =
            some (⟨.data, 0, pos + n⟩, log ++ (u.file.drop pos).take n) := by
          simp [Client.logged, Client.step, Client.sendChunk, hfull, hrest]
        exact ((Run.Reaches.refl _).tail hstep).tail (hclose _ _)

/-- **The client of `Ftp.Client` sends the same bytes.** -/
theorem reaches_writeToServer (hsize : 0 ≤ u.size) (haccept : Client.reciveMsg b beyond = true)
    (memory : List UInt8) :
    Run.Reaches (Client.logged u) (Client.start, [])
      (⟨.closed, 0, u.size.toNat⟩, (writeToServer true true u b beyond memory).sent.flatten) := by
  have htold : Client.logged u (Client.start, []) ([], []) =
      some (⟨.answer, 0, 0⟩, decimal u.size) := by
    simp [Client.logged, Client.step, Client.start, not_lt.mpr hsize]
  have hanswer : Client.logged u (⟨.answer, 0, 0⟩, decimal u.size) ([b], beyond) =
      some (⟨.name, 0, 0⟩, decimal u.size) := by
    simp [Client.logged, Client.step, haccept]
  have hname : Client.logged u (⟨.name, 0, 0⟩, decimal u.size) ([], []) =
      some (⟨.data, u.size.toNat, 0⟩, decimal u.size ++ u.name) := by
    simp only [Client.logged, Client.step, Option.map_some, Int.toNat_of_nonneg hsize]
  have hle : 0 + u.size.toNat ≤ u.file.length := by
    have := toInt32_natCast_le u.file.length
    rw [Upload.size] at *
    omega
  have hloop := reaches_sendLoop hle (decimal u.size ++ u.name) memory
  rw [Nat.zero_add] at hloop
  rw [writeToServer_of_accepted haccept, if_neg (not_lt.mpr hsize), List.flatten_cons,
    List.flatten_cons, ← List.append_assoc]
  exact ((((Run.Reaches.refl _).tail htold).tail hanswer).tail hname).trans hloop

/-! ## Which files are uploaded -/

/-- **A file is uploaded as a whole** exactly if its length is an `int`, or is converted to a
negative one. -/
theorem uploaded_iff (u : Upload) (memory : List UInt8)
    (haccept : Client.reciveMsg b beyond = true) :
    Uploaded u (writeToServer true true u b beyond memory) ↔
      u.file.length < 2 ^ 31 ∨ 2 ^ 31 ≤ u.file.length % 2 ^ 32 := by
  rw [writeToServer_of_accepted haccept, ← size_neg_iff]
  split_ifs with hneg
  · refine iff_of_true (fun h ↦ ?_) (.inr hneg)
    exact absurd (Option.some.inj h) (by decide)
  · have hnonneg : 0 ≤ u.size := not_lt.mp hneg
    rw [← size_eq_iff hnonneg, or_iff_left hneg]
    constructor
    · intro h
      obtain ⟨chunks, hsent, -⟩ := h rfl
      obtain ⟨n, hn⟩ := Int.eq_ofNat_of_zero_le hnonneg
      have hdecimal : decimal u.size = decimal u.file.length := (List.cons.inj hsent).1
      rw [hn, decimal_natCast_inj] at hdecimal
      rw [hn, hdecimal]
    · intro hsize _
      refine ⟨_, by rw [hsize], ?_⟩
      rw [Int.toNat_natCast, flatten_sendLoop rfl (by simp), List.drop_zero, List.take_length]

theorem uploaded_iff_sample :
    Client.reciveMsg 48 [0] = true ∧
      (Uploaded ⟨[1, 2, 3], [97]⟩ (writeToServer true true ⟨[1, 2, 3], [97]⟩ 48 [0] []) ↔
        [1, 2, 3].length < 2 ^ 31 ∨ 2 ^ 31 ≤ [1, 2, 3].length % 2 ^ 32) :=
  ⟨by decide, uploaded_iff ⟨[1, 2, 3], [97]⟩ [] (by decide)⟩

/-- Of a file of 4 GiB, nothing is sent. -/
theorem exists_not_uploaded :
    ¬∀ (u : Upload) (b : UInt8) (beyond memory : List UInt8), Client.reciveMsg b beyond = true →
      Uploaded u (writeToServer true true u b beyond memory) := by
  intro h
  have haccept : Client.reciveMsg 48 [0] = true := by decide
  have hup := h ⟨List.replicate (2 ^ 32) 0, [97]⟩ 48 [0] [] haccept
  have hsize : (⟨List.replicate (2 ^ 32) 0, [97]⟩ : Upload).size = 0 := by
    rw [Upload.size, List.length_replicate, toInt32_natCast, if_pos (by decide)]
    rfl
  rw [writeToServer_of_accepted haccept, hsize, if_neg (by decide)] at hup
  obtain ⟨chunks, hsent, -⟩ := hup rfl
  have hdecimal : decimal (0 : ℕ) = decimal (2 ^ 32 : ℕ) := by
    rw [← List.length_replicate (n := 2 ^ 32) (a := (0 : UInt8))]
    exact (List.cons.inj hsent).1
  exact absurd (decimal_natCast_inj.mp hdecimal) (by decide)

end Ftp
