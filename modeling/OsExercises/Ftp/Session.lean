import OsExercises.Ftp.Buffer
import OsExercises.ForMathlib.Run

/-!
# A connection at the server

A worker of the server runs `readFromClient`: it receives the size, answers, receives the name,
opens the output file and receives data until the stream ends.  One `recv` is taken for one message.
A `Session` is such a worker's place in this code with the data of its client, and what a `recv`
returns is the event, so a run of sessions is the server against a peer that sends anything.

* `Session.step` is what the worker does, and `Session.Moves` says once which steps there are.
* `Session.always_within_iff` says when the server keeps to its limit: as long as the peer does it
  for it.
-/

set_option autoImplicit false

namespace Ftp

open CLib

/-- What a server is started with: `gMaxFileSize`, and which names its file system lets it open for
writing. -/
structure Server where
  maxFileSize : ℕ
  openable : List UInt8 → Bool

/-- Where `readFromClient` is: before the first `recv`, before the answer, before the second
`recv`, in the loop over the data, or at its end. -/
inductive Pc
  | size
  | answer
  | name
  | data
  | done
  deriving DecidableEq, Repr

/-- A worker and the `Client` it serves. -/
structure Session where
  pc : Pc
  /-- `_fileSize`. -/
  fileSize : ℤ
  /-- `_fileName`. -/
  fileName : List UInt8
  /-- The name `_output` was opened under, unless it is not open. -/
  opened : Option (List UInt8)
  /-- What was written to `_output`. -/
  written : List UInt8
  deriving DecidableEq, Repr

/-- What can happen to a worker: a `recv` returns some bytes (none at the end of the stream) or
fails, with this memory behind the buffer, or the answer is sent or cannot be sent. -/
inductive Event
  | recv (r : Option (List UInt8)) (beyond : List UInt8)
  | answer (sent : Bool)
  deriving DecidableEq, Repr

namespace Session

variable {sv : Server} {s t : Session} {e : Event}

/-- A worker starts with a new `Client`. -/
def start : Session := ⟨.size, 0, [], none, []⟩

/-- The byte the worker sends about the size. -/
def answer (sv : Server) (s : Session) : List UInt8 :=
  if sv.maxFileSize < s.fileSize then (decimal error).take 1 else (decimal success).take 1

/-- `_output.open`. -/
def openOutput (sv : Server) (s : Session) : Session :=
  { s with opened := if sv.openable s.fileName then some s.fileName else none }

/-- `_output.write`, which does nothing on a stream that is not open. -/
def write (s : Session) (l : List UInt8) : Session :=
  { s with written := if s.opened.isSome then s.written ++ l else s.written }

/-- `readFromClient` with the three cases of `getMsgFromClient`. -/
def step (sv : Server) (s : Session) : Event → Option Session
  | .recv r beyond =>
    if r.all (·.length ≤ buffSize) then
      match s.pc, r with
      | .size, some l =>
        some { s with pc := .answer, fileSize := atoi (cString (buffer l beyond)) }
      | .name, some l =>
        some ({ s with pc := .data, fileName := cString (buffer l beyond) }.openOutput sv)
      | .data, some (b :: l) => some (s.write (b :: l))
      -- the end of the stream is the end of the data, but not of a size or a name
      | .data, some [] | .size, none | .name, none | .data, none => some { s with pc := .done }
      | .answer, _ | .done, _ => none
    else none
  | .answer sent =>
    if s.pc = .answer then some { s with pc := if sent then .name else .done } else none

/-- The steps of a worker, one by one. -/
inductive Moves (sv : Server) (s : Session) : Event → Session → Prop
  | size (h : s.pc = .size) (l beyond : List UInt8) (hl : l.length ≤ buffSize) :
      Moves sv s (.recv (some l) beyond)
        { s with pc := .answer, fileSize := atoi (cString (buffer l beyond)) }
  | answer (h : s.pc = .answer) (sent : Bool) :
      Moves sv s (.answer sent) { s with pc := if sent then .name else .done }
  | name (h : s.pc = .name) (l beyond : List UInt8) (hl : l.length ≤ buffSize) :
      Moves sv s (.recv (some l) beyond)
        ({ s with pc := .data, fileName := cString (buffer l beyond) }.openOutput sv)
  | data (h : s.pc = .data) (l beyond : List UInt8) (hne : l ≠ []) (hl : l.length ≤ buffSize) :
      Moves sv s (.recv (some l) beyond) (s.write l)
  | eof (h : s.pc = .data) (l beyond : List UInt8) (hl : l = []) :
      Moves sv s (.recv (some l) beyond) { s with pc := .done }
  | fail (h : s.pc = .size ∨ s.pc = .name ∨ s.pc = .data) (beyond : List UInt8) :
      Moves sv s (.recv none beyond) { s with pc := .done }

/-- **What one step can do.** -/
theorem step_eq_some_iff : s.step sv e = some t ↔ Moves sv s e t := by
  constructor
  · intro h
    cases e with
    | answer sent =>
      rw [step] at h
      split at h
      case isFalse => cases h
      case isTrue hpc => exact Option.some.inj h ▸ .answer hpc sent
    | recv r beyond =>
      simp only [step] at h
      split at h
      case isFalse => cases h
      case isTrue hr =>
        split at h
        case h_1 l hpc => exact Option.some.inj h ▸ .size hpc l beyond (by simpa using hr)
        case h_2 l hpc => exact Option.some.inj h ▸ .name hpc l beyond (by simpa using hr)
        case h_3 b l hpc =>
          exact Option.some.inj h ▸ .data hpc _ beyond (List.cons_ne_nil b l) (by simpa using hr)
        case h_4 hpc => exact Option.some.inj h ▸ .eof hpc [] beyond rfl
        case h_5 hpc => exact Option.some.inj h ▸ .fail (.inl hpc) beyond
        case h_6 hpc => exact Option.some.inj h ▸ .fail (.inr (.inl hpc)) beyond
        case h_7 hpc => exact Option.some.inj h ▸ .fail (.inr (.inr hpc)) beyond
        case h_8 => cases h
        case h_9 => cases h
  · intro h
    cases h with
    | size h l beyond hl => simp [step, h, hl]
    | answer h sent => simp [step, h]
    | name h l beyond hl => simp [step, h, hl]
    | data h l beyond hne hl =>
      obtain ⟨b, l, rfl⟩ := List.exists_cons_of_ne_nil hne
      simpa [step, h] using hl
    | eof h l beyond hl => simp [step, h, hl]
    | fail h beyond => rcases h with h | h | h <;> simp [step, h]

/-! ## The size limit -/

/-- The server keeps to its limit on this connection. -/
structure Within (sv : Server) (s : Session) : Prop where
  /-- No more is written than the limit says. -/
  bounded : s.written.length ≤ sv.maxFileSize
  /-- After a size over the limit was declared, nothing is opened and nothing is written. -/
  refused : sv.maxFileSize < s.fileSize → s.opened = none ∧ s.written = []

/-- The peer keeps to the limit: after a size over the limit it sends no name the server can open,
and it sends no data that would exceed the limit. -/
def Polite (sv : Server) (s : Session) : Event → Prop
  | .recv (some l) beyond =>
    (s.pc = .name → sv.maxFileSize < s.fileSize → sv.openable (cString (buffer l beyond)) = false) ∧
      (s.pc = .data → s.opened.isSome → s.written.length + l.length ≤ sv.maxFileSize)
  | _ => True

/-- The invariant of the runs in which the peer keeps to the limit. -/
structure Inv (sv : Server) (s : Session) : Prop extends Within sv s where
  /-- Nothing is declared before the first `recv`. -/
  undeclared : s.pc = .size → s.fileSize = 0
  /-- No file is open before the second `recv`. -/
  unopened : s.pc = .size ∨ s.pc = .answer ∨ s.pc = .name → s.opened = none
  /-- Nothing is written unless the file is open. -/
  unwritten : s.opened = none → s.written = []

theorem start_inv (sv : Server) : Inv sv start := by
  refine ⟨⟨Nat.zero_le _, fun _ ↦ ⟨rfl, rfl⟩⟩, fun _ ↦ rfl, fun _ ↦ rfl, fun _ ↦ rfl⟩

/-- Leaving `readFromClient` keeps the invariant. -/
theorem Inv.finish (hs : s.Inv sv) : ({ s with pc := .done } : Session).Inv sv :=
  ⟨⟨hs.bounded, hs.refused⟩, by simp, by simp, hs.unwritten⟩

/-- Writing to a stream that is not open changes nothing. -/
theorem write_of_not_open (h : s.opened = none) (l : List UInt8) : s.write l = s := by
  have hnot : ¬s.opened.isSome = true := by simp [h]
  rw [write, if_neg hnot]

theorem written_write (h : s.opened.isSome) (l : List UInt8) :
    (s.write l).written = s.written ++ l := if_pos h

/-- **A step of a polite peer keeps the invariant.** -/
theorem Inv.step (hs : s.Inv sv) (hok : s.Polite sv e) (h : Moves sv s e t) : t.Inv sv := by
  cases h with
  | size hpc l beyond hl =>
    have hopen := hs.unopened (.inl hpc)
    have hwritten := hs.unwritten hopen
    exact ⟨⟨hs.bounded, fun _ ↦ ⟨hopen, hwritten⟩⟩, by simp, fun _ ↦ hopen, hs.unwritten⟩
  | answer hpc sent =>
    have hopen := hs.unopened (.inr (.inl hpc))
    refine ⟨⟨hs.bounded, hs.refused⟩, fun h ↦ ?_, fun _ ↦ hopen, hs.unwritten⟩
    cases sent <;> cases h
  | name hpc l beyond hl =>
    have hwritten := hs.unwritten (hs.unopened (.inr (.inr hpc)))
    refine ⟨⟨hs.bounded, fun hlt ↦ ⟨?_, hwritten⟩⟩, by simp [openOutput], by simp [openOutput],
      fun _ ↦ hwritten⟩
    have hno := hok.1 hpc hlt
    simp [openOutput, hno]
  | data hpc l beyond hne hl =>
    by_cases hopen : s.opened = none
    · rwa [write_of_not_open hopen]
    · have hsome : s.opened.isSome := Option.isSome_iff_ne_none.mpr hopen
      have hle := hok.2 hpc hsome
      refine ⟨⟨?_, fun hlt ↦ absurd (hs.refused hlt).1 hopen⟩, by simp [write, hpc],
        by simp [write, hpc], fun h ↦ absurd h hopen⟩
      rwa [written_write hsome, List.length_append]
  | eof hpc l beyond hl => exact hs.finish
  | fail hpc beyond => exact hs.finish

/-- **A step of any other peer breaks the limit.** -/
theorem Inv.polite (hs : s.Inv sv) (h : Moves sv s e t) (ht : t.Within sv) : s.Polite sv e := by
  cases h with
  | size hpc l beyond hl => exact ⟨by simp [hpc], by simp [hpc]⟩
  | answer hpc sent => trivial
  | name hpc l beyond hl =>
    refine ⟨fun _ hlt ↦ ?_, by simp [hpc]⟩
    have hopen := (ht.refused hlt).1
    simpa [openOutput] using hopen
  | data hpc l beyond hne hl =>
    refine ⟨by simp [hpc], fun _ hsome ↦ ?_⟩
    have hle := ht.bounded
    rwa [written_write hsome, List.length_append] at hle
  | eof hpc l beyond hl =>
    refine ⟨by simp [hpc], fun _ _ ↦ ?_⟩
    simpa [hl] using hs.bounded
  | fail hpc beyond => trivial

/-- **The server keeps to its limit on exactly the connections whose peer does.** -/
theorem always_within_iff (sv : Server) (es : List Event) :
    Run.Always (step sv) (Within sv) start es ↔ Run.Meets (step sv) (Polite sv) start es :=
  Run.always_iff_meets (I := Inv sv)
    (fun _ _ _ hs hok h ↦ hs.step hok (step_eq_some_iff.mp h)) (fun _ hs ↦ hs.toWithin)
    (fun _ _ _ hs h ht ↦ hs.polite (step_eq_some_iff.mp h) ht) (start_inv sv)

/-- A peer declares nine bytes to a server that takes four, gets the answer `1`, and goes on. -/
def rudeEvents : List Event :=
  [.recv (some (decimal 9)) [], .answer true, .recv (some [102]) [],
    .recv (some [1, 2, 3, 4, 5, 6, 7, 8, 9]) [], .recv (some []) []]

theorem exec_rudeEvents :
    Run.exec (step ⟨4, fun _ ↦ true⟩) start rudeEvents =
      some ⟨.done, 9, [102], some [102], [1, 2, 3, 4, 5, 6, 7, 8, 9]⟩ := by
  decide

/-- The server opens a file it has refused, and writes more than its limit to it. -/
theorem exists_not_within :
    ∃ sv es s, 0 < sv.maxFileSize ∧ Run.exec (step sv) start es = some s ∧
      sv.maxFileSize < s.fileSize ∧ s.opened = some [102] ∧ sv.maxFileSize < s.written.length :=
  ⟨⟨4, fun _ ↦ true⟩, rudeEvents, _, by decide, exec_rudeEvents, by decide, rfl, by decide⟩

end Session

end Ftp
