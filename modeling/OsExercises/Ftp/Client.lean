import OsExercises.Ftp.Buffer

/-!
# The client

`Client::writeToServer` sends the size of its file, waits for the answer, and sends the name and
then the file, `BUFF_SIZE` bytes at a time.  A `Client` is its place in this code, and one step is
one call of `sendMsgToServer` or `reciveMsg`.

* `Client.step` is what the client does next, and `Client.Moves` says once which steps there are.
* `Client.sent` is all it has sent when it is somewhere, and `Client.Moves.sent` that every step
  sends what is between the two places it leads from and to.
* `Client.work` bounds what is left to do.
-/

set_option autoImplicit false

namespace Ftp

open CLib

/-- What the client is started with: the content of the file, and the name it is to have. -/
structure Upload where
  file : List UInt8
  name : List UInt8

/-- `int size = _toWrite.tellg()`, at the end of the file. -/
def Upload.size (u : Upload) : ℤ := toInt32 u.file.length

/-- Where `writeToServer` is: before the size is sent, before the answer, before the name, in the
loop over the data, or behind it.  A client that is `closed` has sent everything and one that
`failed` has given up; both have ended, and their connection is closed. -/
inductive ClientPc
  | size
  | answer
  | name
  | data
  | closed
  | failed
  deriving DecidableEq, Repr

/-- A client in `writeToServer`. -/
structure Client where
  pc : ClientPc
  /-- `toSend`. -/
  toSend : ℤ
  /-- The position in `_toWrite`. -/
  pos : ℕ
  deriving DecidableEq, Repr

namespace Client

variable {u : Upload} {c c' : Client} {reply reply' msg beyond : List UInt8}

/-- The client at the start of `writeToServer`. -/
def start : Client := ⟨.size, 0, 0⟩

/-- The process has ended. -/
def Ended (c : Client) : Prop := c.pc = .closed ∨ c.pc = .failed

instance : Decidable c.Ended := inferInstanceAs (Decidable (_ ∨ _))

/-- `reciveMsg`, when this byte is received: its buffer has room for the byte only, and `atoi` reads
on into the memory behind it. -/
def reciveMsg (b : UInt8) (beyond : List UInt8) : Bool := atoi (cString (b :: beyond)) = success

/-- `_toWrite.read` of `n` bytes and `sendMsgToServer` of what was read. -/
def sendChunk (u : Upload) (c : Client) (n : ℤ) : Client × List UInt8 :=
  ({ c with toSend := c.toSend - n, pos := c.pos + n.toNat }, (u.file.drop c.pos).take n.toNat)

/-- The next call of `writeToServer`: the client after it, what it has sent, and what is left of the
server's answer. -/
def step (u : Upload) (c : Client) (reply beyond : List UInt8) :
    Option (Client × List UInt8 × List UInt8) :=
  match c.pc with
  | .size =>
    if u.size < 0 then some ({ c with pc := .failed }, [], reply)
    else some ({ c with pc := .answer }, decimal u.size, reply)
  | .answer =>
    match reply with
    | [] => none
    | b :: rest => some ({ c with pc := if reciveMsg b beyond then .name else .failed }, [], rest)
  | .name => some ({ c with pc := .data, toSend := u.size }, u.name, reply)
  | .data =>
    if buffSize ≤ c.toSend then
      some ((c.sendChunk u buffSize).1, (c.sendChunk u buffSize).2, reply)
    -- the bytes that do not fill a buffer
    else if c.toSend ≠ 0 then
      some ((c.sendChunk u c.toSend).1, (c.sendChunk u c.toSend).2, reply)
    else some ({ c with pc := .closed }, [], reply)
  | .closed | .failed => none

/-- The steps of a client, one by one. -/
inductive Moves (u : Upload) (c : Client) :
    List UInt8 → List UInt8 → Client → List UInt8 → List UInt8 → Prop
  | unreadable (h : c.pc = .size) (hneg : u.size < 0) (reply beyond : List UInt8) :
      Moves u c reply beyond { c with pc := .failed } [] reply
  | size (h : c.pc = .size) (hpos : 0 ≤ u.size) (reply beyond : List UInt8) :
      Moves u c reply beyond { c with pc := .answer } (decimal u.size) reply
  | answer (h : c.pc = .answer) (b : UInt8) (rest reply beyond : List UInt8)
      (hreply : reply = b :: rest) :
      Moves u c reply beyond { c with pc := if reciveMsg b beyond then .name else .failed } [] rest
  | name (h : c.pc = .name) (reply beyond : List UInt8) :
      Moves u c reply beyond { c with pc := .data, toSend := u.size } u.name reply
  | chunk (h : c.pc = .data) (n : ℤ) (hn : n = buffSize ∧ n ≤ c.toSend ∨ n = c.toSend ∧ n ≠ 0)
      (reply beyond : List UInt8) :
      Moves u c reply beyond (c.sendChunk u n).1 (c.sendChunk u n).2 reply
  | close (h : c.pc = .data) (hend : c.toSend = 0) (reply beyond : List UInt8) :
      Moves u c reply beyond { c with pc := .closed } [] reply

theorem eq_of_some {α β γ : Type} {a a' : α} {b b' : β} {d d' : γ}
    (h : some (a, b, d) = some (a', b', d')) : a = a' ∧ b = b' ∧ d = d' := by
  simpa using h

/-- **What one step can do.** -/
theorem moves_of_step (h : c.step u reply beyond = some (c', msg, reply')) :
    Moves u c reply beyond c' msg reply' := by
  unfold step at h
  split at h
  case h_1 hpc =>
    split at h
    case isTrue hneg =>
      obtain ⟨rfl, rfl, rfl⟩ := eq_of_some h
      exact .unreadable hpc hneg _ _
    case isFalse hpos =>
      obtain ⟨rfl, rfl, rfl⟩ := eq_of_some h
      exact .size hpc (not_lt.mp hpos) _ _
  case h_2 hpc =>
    split at h
    case h_1 => cases h
    case h_2 b rest =>
      obtain ⟨rfl, rfl, rfl⟩ := eq_of_some h
      exact .answer hpc b rest _ beyond rfl
  case h_3 hpc =>
    obtain ⟨rfl, rfl, rfl⟩ := eq_of_some h
    exact .name hpc _ _
  case h_4 hpc =>
    split at h
    case isTrue hle =>
      obtain ⟨rfl, rfl, rfl⟩ := eq_of_some h
      exact .chunk hpc _ (.inl ⟨rfl, hle⟩) _ _
    case isFalse =>
      split at h
      case isTrue hne =>
        obtain ⟨rfl, rfl, rfl⟩ := eq_of_some h
        exact .chunk hpc _ (.inr ⟨rfl, hne⟩) _ _
      case isFalse hend =>
        obtain ⟨rfl, rfl, rfl⟩ := eq_of_some h
        exact .close hpc (not_not.mp hend) _ _
  case h_5 => cases h
  case h_6 => cases h

/-- A client stops only when it has ended, or when it waits for an answer that is not there. -/
theorem step_eq_none_iff :
    c.step u reply beyond = none ↔ c.Ended ∨ c.pc = .answer ∧ reply = [] := by
  unfold step
  split
  case h_1 hpc => split <;> simp [Ended, hpc]
  case h_2 hpc => split <;> simp [Ended, hpc]
  case h_3 hpc => simp [Ended, hpc]
  case h_4 hpc =>
    split
    · simp [Ended, hpc]
    · split <;> simp [Ended, hpc]
  case h_5 hpc => simp [Ended, hpc]
  case h_6 hpc => simp [Ended, hpc]

/-! ## What has been sent -/

/-- All that a client has sent when it is here. -/
def sent (u : Upload) (c : Client) : List UInt8 :=
  match c.pc with
  | .size => []
  | .answer | .name | .failed => decimal u.size
  | .data | .closed => decimal u.size ++ u.name ++ u.file.take c.pos

theorem sent_of_size (hpc : c.pc = .size) : c.sent u = [] := by
  rw [Client.sent, hpc]

theorem sent_of_told (hpc : c.pc = .answer ∨ c.pc = .name ∨ c.pc = .failed) :
    c.sent u = decimal u.size := by
  rcases hpc with hpc | hpc | hpc <;> rw [Client.sent, hpc]

/-- The counters of the loop fit together. -/
structure Inv (u : Upload) (c : Client) : Prop where
  /-- Before the loop nothing is read. -/
  unread : c.pc ≠ .data → c.pc ≠ .closed → c.pos = 0
  /-- In the loop, the rest of the file is still to be sent. -/
  rest : c.pc = .data → (c.pos : ℤ) + c.toSend = u.file.length ∧ 0 ≤ c.toSend
  /-- Behind it, the whole file was sent. -/
  all : c.pc = .closed → u.file.length ≤ c.pos

theorem start_inv (u : Upload) : Inv u start := by
  constructor <;> simp [start]

/-- **A step keeps the counters, and sends what is between the two places.**  The file is one whose
length is an `int`. -/
theorem Moves.sent (hsize : u.size = u.file.length) (hc : c.Inv u)
    (h : Moves u c reply beyond c' msg reply') :
    c'.Inv u ∧ c'.sent u = c.sent u ++ msg := by
  cases h with
  | unreadable hpc hneg => omega
  | size hpc hpos =>
    refine ⟨⟨fun _ _ ↦ hc.unread (by simp [hpc]) (by simp [hpc]), by simp, by simp⟩, ?_⟩
    rw [sent_of_size hpc, sent_of_told (.inl rfl), List.nil_append]
  | answer hpc b =>
    have hpos := hc.unread (by simp [hpc]) (by simp [hpc])
    cases hb : reciveMsg b beyond <;>
      exact ⟨⟨fun _ _ ↦ hpos, by simp, by simp⟩, by simp [Client.sent, hpc]⟩
  | name hpc =>
    have hpos := hc.unread (by simp [hpc]) (by simp [hpc])
    exact ⟨⟨by simp, fun _ ↦ by simp [hpos, hsize], by simp⟩, by simp [Client.sent, hpc, hpos]⟩
  | chunk hpc n hn =>
    obtain ⟨hrest, hnonneg⟩ := hc.rest hpc
    have hbuff : (0 : ℤ) < buffSize := by decide
    refine ⟨⟨by simp [sendChunk, hpc], fun _ ↦ ?_, by simp [sendChunk, hpc]⟩, ?_⟩
    · simp only [sendChunk]
      omega
    · simp [Client.sent, sendChunk, hpc, List.take_add]
  | close hpc hend =>
    have hrest := (hc.rest hpc).1
    refine ⟨⟨by simp, by simp, fun _ ↦ ?_⟩, by simp [Client.sent, hpc]⟩
    simp only
    omega

theorem Inv.sent_of_closed (hc : c.Inv u) (hpc : c.pc = .closed) :
    c.sent u = decimal u.size ++ u.name ++ u.file := by
  simp only [Client.sent, hpc, List.take_of_length_le (hc.all hpc)]

/-! ## What is left to do -/

/-- A bound for the steps and bytes that are left, every byte counted twice. -/
def work (u : Upload) (c : Client) : ℕ :=
  match c.pc with
  | .size => 2 * ((decimal u.size).length + u.name.length + u.size.toNat) + 5
  | .answer => 2 * (u.name.length + u.size.toNat) + 4
  | .name => 2 * (u.name.length + u.size.toNat) + 3
  | .data => 2 * c.toSend.toNat + 2
  | .closed | .failed => 0

theorem length_sendChunk_le (n : ℤ) : (c.sendChunk u n).2.length ≤ n.toNat :=
  List.length_take_le _ _

/-- **Every step does some of the work**, and what it sends is counted once more than that. -/
theorem Moves.work_lt (hc : c.Inv u) (h : Moves u c reply beyond c' msg reply') :
    c'.work u + msg.length < c.work u := by
  cases h with
  | unreadable hpc => simp [work, hpc]
  | size hpc =>
    simp only [work, hpc]
    omega
  | answer hpc b =>
    simp only [work, hpc]
    cases reciveMsg b beyond <;> simp
  | name hpc =>
    simp only [work, hpc]
    omega
  | chunk hpc n hn =>
    have hlen := length_sendChunk_le (c := c) (u := u) n
    have hnonneg := (hc.rest hpc).2
    have hbuff : (0 : ℤ) < buffSize := by decide
    have hwork : (c.sendChunk u n).1.work u = 2 * (c.toSend - n).toNat + 2 := by
      simp [work, sendChunk, hpc]
    rw [hwork, work, hpc]
    simp only
    omega
  | close hpc hend => simp [work, hpc]

end Client

end Ftp
