import OsExercises.Ftp.Client
import OsExercises.Ftp.Session

/-!
# A client and the server over a stream

The client and a worker of the server are joined by an ordered stream that loses nothing.  A `recv`
of the server returns any non-empty piece of what was sent and not yet received, or the end of the
stream once the client has ended.  A `Net` is the two of them with the bytes in between.

* `Net.Inv` says what holds in every interleaving: what was received and what is in between is what
  was sent, and the two agree about the answer.  No reachable state is stuck before both have ended
  (`Net.Inv.ended_of_stuck`), and a bound on the work that is left ends every run.
* `Net.transferred_iff` says which segmentations transfer the file: those in which the first `recv`
  returns the size and the second one the name.
-/

set_option autoImplicit false

namespace Ftp

open CLib

/-! ## What a session has heard -/

namespace Session

variable {sv : Server} {s t : Session} {l beyond : List UInt8} {received : List (List UInt8)}

/-- The session after its `recv`s have returned these pieces of the stream. -/
inductive Heard (sv : Server) : List (List UInt8) → Session → Prop
  | nothing : Heard sv [] start
  | size (a y : List UInt8) (s : Session) (hpc : s.pc = .answer ∨ s.pc = .name)
      (hsize : s.fileSize = atoi (cString (buffer a y))) (hopened : s.opened = none)
      (hwritten : s.written = []) : Heard sv [a] s
  | name (a b y z : List UInt8) (rest : List (List UInt8)) (s : Session)
      (hpc : s.pc = .data ∨ s.pc = .done) (hsize : s.fileSize = atoi (cString (buffer a y)))
      (hname : s.fileName = cString (buffer b z))
      (hopened : s.opened = if sv.openable s.fileName then some s.fileName else none)
      (hwritten : s.written = if s.opened.isSome then rest.flatten else []) :
      Heard sv (a :: b :: rest) s

theorem Heard.eq_nil (h : Heard sv received s) (hpc : s.pc = .size) : received = [] := by
  cases h with
  | nothing => rfl
  | size _ _ _ h => simp [hpc] at h
  | name _ _ _ _ _ _ h => simp [hpc] at h

theorem Heard.eq_singleton (h : Heard sv received s) (hpc : s.pc = .answer ∨ s.pc = .name) :
    ∃ a y, received = [a] ∧ s.fileSize = atoi (cString (buffer a y)) ∧ s.opened = none ∧
      s.written = [] := by
  cases h with
  | nothing => simp [start] at hpc
  | size a y _ _ hsize hopened hwritten => exact ⟨a, y, rfl, hsize, hopened, hwritten⟩
  | name _ _ _ _ _ _ h => rcases hpc with hpc | hpc <;> simp [hpc] at h

theorem Heard.eq_cons (h : Heard sv received s) (hpc : s.pc = .data ∨ s.pc = .done) :
    ∃ a b y z rest, received = a :: b :: rest ∧ s.fileSize = atoi (cString (buffer a y)) ∧
      s.fileName = cString (buffer b z) ∧
      s.opened = (if sv.openable s.fileName then some s.fileName else none) ∧
      s.written = if s.opened.isSome then rest.flatten else [] := by
  cases h with
  | nothing => simp [start] at hpc
  | size _ _ _ h => rcases hpc with hpc | hpc <;> simp [hpc] at h
  | name a b y z rest _ _ hsize hname hopened hwritten =>
    exact ⟨a, b, y, z, rest, rfl, hsize, hname, hopened, hwritten⟩

theorem Heard.ne_nil (h : Heard sv received s) (hpc : s.pc ≠ .size) : received ≠ [] := by
  cases h with
  | nothing => exact absurd rfl hpc
  | size => exact List.cons_ne_nil _ _
  | name => exact List.cons_ne_nil _ _

/-- A `recv` adds what it returns. -/
theorem Heard.recv (h : Heard sv received s) (hm : Moves sv s (.recv (some l) beyond) t) :
    Heard sv (received ++ [l]) t := by
  cases hm with
  | size hpc _ _ hl =>
    rw [h.eq_nil hpc]
    cases h with
    | nothing => exact .size l beyond _ (.inl rfl) rfl rfl rfl
    | size _ _ _ h => simp [hpc] at h
    | name _ _ _ _ _ _ h => simp [hpc] at h
  | name hpc _ _ hl =>
    obtain ⟨a, y, rfl, hsize, hopened, hwritten⟩ := h.eq_singleton (.inr hpc)
    exact .name a l y beyond [] _ (.inl rfl) hsize rfl rfl (by simp [openOutput, hwritten])
  | data hpc _ _ hne hl =>
    obtain ⟨a, b, y, z, rest, rfl, hsize, hname, hopened, hwritten⟩ := h.eq_cons (.inl hpc)
    refine .name a b y z (rest ++ [l]) _ (.inl hpc) hsize hname hopened ?_
    by_cases hopen : s.opened.isSome
    · rw [written_write hopen, hwritten]
      simp [write, hopen]
    · simp [write, hopen, hwritten]
  | eof hpc _ _ hl =>
    obtain ⟨a, b, y, z, rest, rfl, hsize, hname, hopened, hwritten⟩ := h.eq_cons (.inl hpc)
    refine .name a b y z (rest ++ [l]) { s with pc := .done } (.inr rfl) hsize hname hopened ?_
    simpa [hl] using hwritten

/-- The answer adds nothing. -/
theorem Heard.answer (h : Heard sv received s) (hm : Moves sv s (.answer true) t) :
    Heard sv received t := by
  cases hm with
  | answer hpc _ =>
    obtain ⟨a, y, rfl, hsize, hopened, hwritten⟩ := h.eq_singleton (.inl hpc)
    exact .size a y _ (.inr rfl) hsize hopened hwritten

theorem answer_of_le (h : s.fileSize ≤ sv.maxFileSize) : s.answer sv = [48] := by
  rw [answer, if_neg (not_lt.mpr h)]
  decide

theorem answer_ne_nil (sv : Server) (s : Session) : s.answer sv ≠ [] := by
  rw [answer]
  split <;> decide

/-- How many messages the worker still has to receive or send. -/
def left (s : Session) : ℕ :=
  match s.pc with
  | .size => 4
  | .answer => 3
  | .name => 2
  | .data => 1
  | .done => 0

/-- The end of the stream counts as a message, whatever the worker waits for. -/
theorem Moves.left_le (h : Moves sv s (.recv (some l) beyond) t) :
    t.left ≤ s.left ∧ (l = [] → t.left < s.left) := by
  cases h with
  | size hpc => simp [left, hpc]
  | name hpc => simp [left, openOutput, hpc]
  | data hpc _ _ hne => exact ⟨le_rfl, fun h ↦ absurd h hne⟩
  | eof hpc => simp [left, hpc]

/-- A worker that waits for a message takes any that comes. -/
theorem exists_moves_recv (sv : Server) (beyond : List UInt8)
    (hpc : s.pc = .size ∨ s.pc = .name ∨ s.pc = .data) (hl : l.length ≤ buffSize) :
    ∃ t, Moves sv s (.recv (some l) beyond) t := by
  rcases hpc with hpc | hpc | hpc
  · exact ⟨_, .size hpc l beyond hl⟩
  · exact ⟨_, .name hpc l beyond hl⟩
  · by_cases hne : l = []
    · exact ⟨_, .eof hpc l beyond hne⟩
    · exact ⟨_, .data hpc l beyond hne hl⟩

end Session

/-! ## The two parties -/

/-- A client and a worker with the bytes between them. -/
structure Net where
  client : Client
  /-- Sent by the client and not yet received. -/
  wire : List UInt8
  /-- Sent by the server and not yet received. -/
  reply : List UInt8
  session : Session
  /-- What the `recv`s of the server have returned so far. -/
  received : List (List UInt8)
  deriving DecidableEq, Repr

/-- What can happen: the client takes its next step, a `recv` of the server returns that many bytes,
or the server answers.  In both programs a number is read with some memory behind the buffer. -/
inductive NetEvent
  | client (beyond : List UInt8)
  | recv (n : ℕ) (beyond : List UInt8)
  | answer
  deriving DecidableEq, Repr

namespace Net

variable {sv : Server} {u : Upload} {s t : Net} {e : NetEvent}

/-- Nothing has been sent yet. -/
def start : Net := ⟨.start, [], [], .start, []⟩

/-- What the client sent is on the wire. -/
def sends (s : Net) (r : Client × List UInt8 × List UInt8) : Net :=
  { s with client := r.1, wire := s.wire ++ r.2.1, reply := r.2.2 }

/-- A `recv` has returned `n` bytes. -/
def receives (s : Net) (n : ℕ) (t : Session) : Net :=
  { s with wire := s.wire.drop n, session := t, received := s.received ++ [s.wire.take n] }

/-- The answer is sent. -/
def answers (sv : Server) (s : Net) (t : Session) : Net :=
  { s with reply := s.reply ++ s.session.answer sv, session := t }

/-- A `recv` may return this many bytes. -/
def MayReceive (s : Net) (n : ℕ) : Prop :=
  0 < n ∧ n ≤ s.wire.length ∨ n = 0 ∧ s.wire = [] ∧ s.client.Ended

instance (n : ℕ) : Decidable (s.MayReceive n) := inferInstanceAs (Decidable (_ ∨ _))

/-- A step of one of the two. -/
def step (sv : Server) (u : Upload) (s : Net) : NetEvent → Option Net
  | .client beyond => (s.client.step u s.reply beyond).map s.sends
  | .recv n beyond =>
    if s.MayReceive n then
      (s.session.step sv (.recv (some (s.wire.take n)) beyond)).map (s.receives n)
    else none
  | .answer => (s.session.step sv (.answer true)).map (s.answers sv)

/-- The steps of the two, one by one. -/
inductive Moves (sv : Server) (u : Upload) (s : Net) : NetEvent → Net → Prop
  | client {c : Client} {msg reply beyond : List UInt8}
      (h : Client.Moves u s.client s.reply beyond c msg reply) :
      Moves sv u s (.client beyond) (s.sends (c, msg, reply))
  | recv {n : ℕ} {beyond : List UInt8} {t : Session} (hn : s.MayReceive n)
      (h : Session.Moves sv s.session (.recv (some (s.wire.take n)) beyond) t) :
      Moves sv u s (.recv n beyond) (s.receives n t)
  | answer {t : Session} (h : Session.Moves sv s.session (.answer true) t) :
      Moves sv u s .answer (s.answers sv t)

/-- **What one step can do.** -/
theorem moves_of_step (h : s.step sv u e = some t) : Moves sv u s e t := by
  cases e with
  | client beyond =>
    obtain ⟨⟨c, msg, reply⟩, hc, rfl⟩ := Option.map_eq_some_iff.mp h
    exact .client (Client.moves_of_step hc)
  | recv n beyond =>
    rw [step] at h
    split at h
    case isFalse => cases h
    case isTrue hn =>
      obtain ⟨t, ht, rfl⟩ := Option.map_eq_some_iff.mp h
      exact .recv hn (Session.step_eq_some_iff.mp ht)
  | answer =>
    obtain ⟨t, ht, rfl⟩ := Option.map_eq_some_iff.mp h
    exact .answer (Session.step_eq_some_iff.mp ht)

/-! ## What holds in every interleaving -/

/-- The invariant of all runs. -/
structure Inv (sv : Server) (u : Upload) (s : Net) : Prop where
  client : s.client.Inv u
  heard : s.session.Heard sv s.received
  /-- What was received and what is on the wire is what was sent. -/
  stream : s.received.flatten ++ s.wire = s.client.sent u
  /-- The first `recv` does not find the end of the stream. -/
  first : ∀ a ∈ s.received.head?, a ≠ []
  /-- While the worker waits for the size, there is no answer. -/
  waiting : s.session.pc = .size → s.reply = [] ∧ (s.client.pc = .size ∨ s.client.pc = .answer)
  /-- When it has to answer, there is none yet. -/
  asked : s.session.pc = .answer → s.reply = [] ∧ s.client.pc = .answer
  /-- Then the answer waits for the client, if the client still waits for the answer. -/
  answered : s.session.pc ≠ .size → s.session.pc ≠ .answer →
    s.client.pc ≠ .size ∧ (s.client.pc = .answer → s.reply = s.session.answer sv)
  /-- The worker ends when the stream does. -/
  drained : s.session.pc = .done → s.wire = [] ∧ s.client.Ended

theorem start_inv (sv : Server) (u : Upload) : Inv sv u start := by
  refine ⟨Client.start_inv u, .nothing, rfl, ?_, ?_, ?_, ?_, ?_⟩ <;>
    simp [start, Session.start, Client.start]

/-- A step of the client. -/
theorem Inv.client_step (hsize : u.size = u.file.length) (hs : s.Inv sv u) {c : Client}
    {msg reply beyond : List UInt8} (h : Client.Moves u s.client s.reply beyond c msg reply) :
    (s.sends (c, msg, reply)).Inv sv u := by
  obtain ⟨hinv, hsent⟩ := h.sent hsize hs.client
  have hstream : s.received.flatten ++ (s.wire ++ msg) = c.sent u := by
    rw [← List.append_assoc, hs.stream, hsent]
  refine ⟨hinv, hs.heard, hstream, hs.first, fun hpc ↦ ?_, fun hpc ↦ ?_, fun hpc hpc' ↦ ?_,
    fun hpc ↦ ?_⟩
  · obtain ⟨hreply, hc⟩ := hs.waiting hpc
    cases h with
    | unreadable => omega
    | size => exact ⟨hreply, .inr rfl⟩
    | answer _ _ _ _ _ hb => simp [hreply] at hb
    | name h => simp [h] at hc
    | chunk h => simp [h] at hc
    | close h => simp [h] at hc
  · obtain ⟨hreply, hc⟩ := hs.asked hpc
    cases h with
    | unreadable h => simp [h] at hc
    | size h => simp [h] at hc
    | answer _ _ _ _ _ hb => simp [hreply] at hb
    | name h => simp [h] at hc
    | chunk h => simp [h] at hc
    | close h => simp [h] at hc
  · obtain ⟨hc, -⟩ := hs.answered hpc hpc'
    cases h with
    | unreadable => omega
    | size h => exact absurd h hc
    | answer h b => cases hb : Client.reciveMsg b beyond <;> simp [sends]
    | name => simp [sends]
    | chunk h => simp [sends, Client.sendChunk, h]
    | close => simp [sends]
  · exfalso
    have hc := (hs.drained hpc).2
    cases h with
    | unreadable => omega
    | size h => simp [Client.Ended, h] at hc
    | answer h => simp [Client.Ended, h] at hc
    | name h => simp [Client.Ended, h] at hc
    | chunk h => simp [Client.Ended, h] at hc
    | close h => simp [Client.Ended, h] at hc

/-- A `recv` of the server. -/
theorem Inv.recv_step (hs : s.Inv sv u) {n : ℕ} {beyond : List UInt8} {t : Session}
    (hn : s.MayReceive n) (h : Session.Moves sv s.session (.recv (some (s.wire.take n)) beyond) t) :
    (s.receives n t).Inv sv u := by
  have hheard := hs.heard.recv h
  have hstream : (s.received ++ [s.wire.take n]).flatten ++ s.wire.drop n = s.client.sent u := by
    rw [← hs.stream]
    simp
  -- the client has sent its size when the first `recv` returns
  have hfirst : s.session.pc = .size → s.wire.take n ≠ [] ∧ s.client.pc = .answer := fun hpc ↦ by
    have hc := (hs.waiting hpc).2
    rcases hn with ⟨hpos, hle⟩ | ⟨-, -, hend⟩
    · have hne : s.wire ≠ [] := by
        rintro hnil
        simp [hnil] at hle
        omega
      refine ⟨by simp [hne, hpos.ne'], hc.resolve_left fun hcs ↦ hne ?_⟩
      have hnil := hs.stream
      rw [Client.sent_of_size hcs] at hnil
      exact (List.append_eq_nil_iff.mp hnil).2
    · rcases hc with hc | hc <;> simp [Client.Ended, hc] at hend
  refine ⟨hs.client, hheard, hstream, fun a ha ↦ ?_, ?_, fun hpc ↦ ?_, fun hpc hpc' ↦ ?_,
    fun hpc ↦ ?_⟩
  · by_cases hpc : s.session.pc = .size
    · rw [receives, hs.heard.eq_nil hpc] at ha
      obtain rfl : s.wire.take n = a := by simpa using ha
      exact (hfirst hpc).1
    · refine hs.first a ?_
      rwa [receives, List.head?_append_of_ne_nil _ (hs.heard.ne_nil hpc)] at ha
  · intro hpc
    have hnil := hheard.eq_nil hpc
    simp at hnil
  · cases h with
    | size hpc' => exact ⟨(hs.waiting hpc').1, (hfirst hpc').2⟩
    | name => cases hpc
    | data hpc' =>
      have : s.session.pc = .answer := hpc
      simp [hpc'] at this
    | eof => cases hpc
  · cases h with
    | size => exact absurd rfl hpc'
    | name hpc₀ => exact hs.answered (by simp [hpc₀]) (by simp [hpc₀])
    | data hpc₀ => exact hs.answered (by simp [hpc₀]) (by simp [hpc₀])
    | eof hpc₀ => exact hs.answered (by simp [hpc₀]) (by simp [hpc₀])
  · cases h with
    | size => cases hpc
    | name => cases hpc
    | data hpc₀ =>
      have : s.session.pc = .done := hpc
      simp [hpc₀] at this
    | eof hpc₀ _ _ hnil =>
      rcases hn with ⟨hpos, hle⟩ | ⟨rfl, hwire, hend⟩
      · have := congrArg List.length hnil
        rw [List.length_take, List.length_nil] at this
        omega
      · exact ⟨by simp [receives, hwire], hend⟩

/-- The answer of the server. -/
theorem Inv.answer_step (hs : s.Inv sv u) {t : Session}
    (h : Session.Moves sv s.session (.answer true) t) : (s.answers sv t).Inv sv u := by
  have hheard := hs.heard.answer h
  cases h with
  | answer hpc _ =>
    obtain ⟨hreply, hc⟩ := hs.asked hpc
    refine ⟨hs.client, hheard, hs.stream, hs.first, by simp [answers], by simp [answers],
      fun _ _ ↦ ⟨by simp [answers, hc], fun _ ↦ ?_⟩, by simp [answers]⟩
    simp [answers, hreply, Session.answer]

/-- **Every step keeps the invariant.** -/
theorem Inv.step (hsize : u.size = u.file.length) (hs : s.Inv sv u) (h : Moves sv u s e t) :
    t.Inv sv u := by
  cases h with
  | client h => exact hs.client_step hsize h
  | recv hn h => exact hs.recv_step hn h
  | answer h => exact hs.answer_step h

/-! ## Every run ends -/

/-- A bound for the steps that are left. -/
def work (u : Upload) (s : Net) : ℕ := s.client.work u + s.wire.length + s.session.left

/-- **Every step does some of the work.** -/
theorem Inv.work_lt (hs : s.Inv sv u) (h : Moves sv u s e t) : t.work u < s.work u := by
  cases h with
  | client h =>
    have hlt := h.work_lt hs.client
    simp only [work, sends, List.length_append]
    omega
  | recv hn h =>
    obtain ⟨hle, hlt⟩ := h.left_le
    simp only [work, receives, List.length_drop]
    rcases hn with ⟨hpos, hlen⟩ | ⟨rfl, -, -⟩
    · omega
    · have := hlt (by simp)
      omega
  | answer h =>
    cases h with
    | answer hpc => simp [work, answers, Session.left, hpc]

/-- No run is longer than this. -/
theorem length_le_of_exec (hsize : u.size = u.file.length) {es : List NetEvent}
    (h : Run.exec (step sv u) start es = some s) :
    es.length ≤ 2 * ((decimal u.size).length + u.name.length + u.file.length) + 9 := by
  have hle := Run.length_add_le_of_exec (I := Inv sv u) (f := work u)
    (fun _ _ _ hs hst ↦ ⟨hs.step hsize (moves_of_step hst), hs.work_lt (moves_of_step hst)⟩)
    (start_inv sv u) h
  simp only [work, start, Client.work, Client.start, Session.left, Session.start,
    List.length_nil] at hle
  omega

/-- A worker that waits for a message gets one, if there is one or will be none. -/
theorem exists_recv (sv : Server) (u : Upload)
    (hpc : s.session.pc = .size ∨ s.session.pc = .name ∨ s.session.pc = .data)
    (hw : s.wire ≠ [] ∨ s.client.Ended) : ∃ e, s.step sv u e ≠ none := by
  obtain ⟨n, hn, hlen⟩ : ∃ n, s.MayReceive n ∧ (s.wire.take n).length ≤ buffSize := by
    by_cases hnil : s.wire = []
    · exact ⟨0, .inr ⟨rfl, hnil, hw.resolve_left (absurd hnil)⟩, by simp⟩
    · refine ⟨1, .inl ⟨Nat.one_pos, List.length_pos_iff.mpr hnil⟩, ?_⟩
      exact (List.length_take_le _ _).trans (by decide)
  obtain ⟨t, ht⟩ := Session.exists_moves_recv sv [] hpc hlen
  refine ⟨.recv n [], ?_⟩
  simp [step, hn, Session.step_eq_some_iff.mpr ht]

/-- **No deadlock.**  Where nothing can happen any more, both have ended. -/
theorem Inv.ended_of_stuck (hsize : u.size = u.file.length) (hs : s.Inv sv u)
    (hstuck : ∀ e, s.step sv u e = none) : s.session.pc = .done ∧ s.client.Ended := by
  have hclient : s.client.Ended ∨ s.client.pc = .answer ∧ s.reply = [] := by
    have hnone := hstuck (.client [])
    rwa [Net.step, Option.map_eq_none_iff, Client.step_eq_none_iff] at hnone
  have hrecv : s.session.pc = .size ∨ s.session.pc = .name ∨ s.session.pc = .data →
      s.wire = [] ∧ s.client.pc = .answer ∧ s.reply = [] := by
    intro hpc
    have hno : ¬(s.wire ≠ [] ∨ s.client.Ended) := by
      intro hw
      obtain ⟨e, he⟩ := exists_recv sv u hpc hw
      exact he (hstuck e)
    rw [not_or, not_not] at hno
    exact ⟨hno.1, hclient.resolve_left hno.2⟩
  cases hpc : s.session.pc with
  | size =>
    exfalso
    obtain ⟨hwire, hc, -⟩ := hrecv (.inl hpc)
    have hstream := hs.stream
    rw [hs.heard.eq_nil hpc, hwire, Client.sent_of_told (.inl hc), hsize] at hstream
    exact decimal_natCast_ne_nil _ hstream.symm
  | answer =>
    have hnone := hstuck .answer
    rw [Net.step, Option.map_eq_none_iff] at hnone
    simp [Session.step, hpc] at hnone
  | name =>
    obtain ⟨-, hc, hreply⟩ := hrecv (.inr (.inl hpc))
    have hanswer := (hs.answered (by simp [hpc]) (by simp [hpc])).2 hc
    exact absurd (hanswer.symm.trans hreply) (Session.answer_ne_nil sv s.session)
  | data =>
    obtain ⟨-, hc, hreply⟩ := hrecv (.inr (.inr hpc))
    have hanswer := (hs.answered (by simp [hpc]) (by simp [hpc])).2 hc
    exact absurd (hanswer.symm.trans hreply) (Session.answer_ne_nil sv s.session)
  | done => exact ⟨rfl, (hs.drained hpc).2⟩

/-- Where both have ended, nothing can happen any more. -/
theorem stuck_of_ended (hdone : s.session.pc = .done) (hend : s.client.Ended) (e : NetEvent) :
    s.step sv u e = none := by
  cases e with
  | client beyond =>
    rw [step, Option.map_eq_none_iff]
    exact Client.step_eq_none_iff.mpr (.inl hend)
  | recv n beyond =>
    rw [step]
    split
    · simp [Session.step, hdone]
    · rfl
  | answer => simp [step, Session.step, hdone]

/-! ## Which segmentations transfer the file -/

/-- An upload within the server's limit, with a name that fits its buffer. -/
structure Valid (sv : Server) (u : Upload) : Prop where
  size_le : u.file.length ≤ sv.maxFileSize
  size_lt : u.file.length < 2 ^ 31
  name_ne_nil : u.name ≠ []
  name_nul : 0 ∉ u.name
  name_lt : u.name.length < buffSize

/-- The server has accepted the size, opened the requested name, and written the file. -/
structure Transferred (sv : Server) (u : Upload) (s : Net) : Prop where
  accepted : s.session.fileSize ≤ sv.maxFileSize
  opened : s.session.opened = some u.name
  written : s.session.written = u.file

/-- The first `recv` returns the size and the second one the name, and the client reads the server's
`0` as zero, whatever lies behind its buffer. -/
def Segmented (u : Upload) (s : Net) : NetEvent → Prop
  | .client beyond => s.client.pc = .answer → Client.reciveMsg 48 beyond
  | .recv n _ =>
    (s.session.pc = .size → s.wire.take n = decimal u.size) ∧
      (s.session.pc = .name → s.wire.take n = u.name)
  | .answer => True

/-- So far the messages have come one by one, and the client has not given up. -/
structure OnTrack (u : Upload) (s : Net) : Prop where
  size : ∀ a, s.received[0]? = some a → a = decimal u.size
  name : ∀ b, s.received[1]? = some b → b = u.name
  going : s.client.pc ≠ .failed

theorem Valid.size_eq (hu : Valid sv u) : u.size = u.file.length := toInt32_of_lt hu.size_lt

/-- What the client sends for the size. -/
theorem Valid.size_msg (hu : Valid sv u) :
    0 ∉ decimal u.size ∧ (decimal u.size).length < buffSize ∧
      (decimal u.size).length ≤ max 1 u.file.length ∧ atoi (decimal u.size) = u.file.length := by
  rw [hu.size_eq, atoi_decimal hu.size_lt]
  refine ⟨zero_notMem_decimal _, ?_, ?_, rfl⟩
  · rw [decimal_natCast]
    have hlt := hu.size_lt
    have hle : (digits u.file.length).length ≤ max 1 10 := length_digits_le_of_lt_pow (by omega)
    exact hle.trans_lt (by decide)
  · rw [decimal_natCast]
    exact length_digits_le _

/-- A server that has received the size as one piece accepts it. -/
theorem Inv.accepts (hu : Valid sv u) (hs : s.Inv sv u) (ho : s.OnTrack u)
    (hpc : s.session.pc ≠ .size) : s.session.fileSize ≤ sv.maxFileSize := by
  obtain ⟨hnul, hlt, -, hatoi⟩ := hu.size_msg
  obtain ⟨a, y, hget, hsize⟩ :
      ∃ a y, s.received[0]? = some a ∧ s.session.fileSize = atoi (cString (buffer a y)) := by
    cases hpc' : s.session.pc with
    | size => exact absurd hpc' hpc
    | answer =>
      obtain ⟨a, y, hr, hsize, -⟩ := hs.heard.eq_singleton (.inl hpc')
      exact ⟨a, y, by simp [hr], hsize⟩
    | name =>
      obtain ⟨a, y, hr, hsize, -⟩ := hs.heard.eq_singleton (.inr hpc')
      exact ⟨a, y, by simp [hr], hsize⟩
    | data =>
      obtain ⟨a, b, y, z, rest, hr, hsize, -⟩ := hs.heard.eq_cons (.inl hpc')
      exact ⟨a, y, by simp [hr], hsize⟩
    | done =>
      obtain ⟨a, b, y, z, rest, hr, hsize, -⟩ := hs.heard.eq_cons (.inr hpc')
      exact ⟨a, y, by simp [hr], hsize⟩
  rw [hsize, ho.size a hget, cString_buffer hnul hlt, hatoi]
  exact_mod_cast hu.size_le

/-- **A step stays on track if and only if the stream is cut as the server expects.** -/
theorem Inv.onTrack_iff (hu : Valid sv u) (hs : s.Inv sv u) (ho : s.OnTrack u)
    (h : Moves sv u s e t) : t.OnTrack u ↔ s.Segmented u e := by
  cases h with
  | @client c msg reply beyond h =>
    have hiff : (s.sends (c, msg, reply)).OnTrack u ↔ c.pc ≠ .failed :=
      ⟨fun h ↦ h.going, fun h ↦ ⟨ho.size, ho.name, h⟩⟩
    rw [hiff]
    cases h with
    | unreadable hpc hneg =>
      have := hu.size_eq
      omega
    | size hpc => simp [Segmented, hpc]
    | answer hpc b _ _ _ hreply =>
      have hsize : s.session.pc ≠ .size := fun h ↦ by simp [(hs.waiting h).1] at hreply
      have hasked : s.session.pc ≠ .answer := fun h ↦ by simp [(hs.asked h).1] at hreply
      have hanswer := (hs.answered hsize hasked).2 hpc
      rw [Session.answer_of_le (hs.accepts hu ho hsize), hreply] at hanswer
      obtain ⟨rfl, -⟩ := List.cons.inj hanswer
      simp [Segmented, hpc]
    | name hpc => simp [Segmented, hpc]
    | chunk hpc => simp [Segmented, hpc, Client.sendChunk]
    | close hpc => simp [Segmented, hpc]
  | @recv n beyond t hn h =>
    have hiff : (s.receives n t).OnTrack u ↔
        (∀ a, (s.received ++ [s.wire.take n])[0]? = some a → a = decimal u.size) ∧
          ∀ b, (s.received ++ [s.wire.take n])[1]? = some b → b = u.name :=
      ⟨fun h ↦ ⟨h.size, h.name⟩, fun h ↦ ⟨h.1, h.2, ho.going⟩⟩
    rw [hiff]
    cases h with
    | size hpc =>
      rw [hs.heard.eq_nil hpc]
      simp [Segmented, hpc]
    | name hpc =>
      obtain ⟨a, y, hr, -⟩ := hs.heard.eq_singleton (.inr hpc)
      have ha := ho.size a (by simp [hr])
      rw [hr]
      simp [Segmented, hpc, ha]
    | data hpc | eof hpc =>
      obtain ⟨a, b, y, z, rest, hr, -⟩ := hs.heard.eq_cons (.inl hpc)
      have ha := ho.size a (by simp [hr])
      have hb := ho.name b (by simp [hr])
      rw [hr]
      simp [Segmented, hpc, ha, hb]
  | answer h => exact ⟨fun _ ↦ trivial, fun _ ↦ ⟨ho.size, ho.name, ho.going⟩⟩

/-- Who has lost the track does not find it again. -/
theorem onTrack_of_step (h : Moves sv u s e t) (ho : t.OnTrack u) : s.OnTrack u := by
  cases h with
  | client h =>
    refine ⟨ho.size, ho.name, fun hfailed ↦ ?_⟩
    cases h with
    | unreadable hpc => simp [hpc] at hfailed
    | size hpc => simp [hpc] at hfailed
    | answer hpc => simp [hpc] at hfailed
    | name hpc => simp [hpc] at hfailed
    | chunk hpc => simp [hpc] at hfailed
    | close hpc => simp [hpc] at hfailed
  | @recv n _ t hn h =>
    have hgrow : ∀ (i : ℕ) (a : List UInt8), s.received[i]? = some a →
        (s.receives n t).received[i]? = some a := by
      intro i a ha
      have hi : i < s.received.length := (List.getElem?_eq_some_iff.mp ha).1
      rw [receives, List.getElem?_append_left hi, ha]
    exact ⟨fun a ha ↦ ho.size a (hgrow 0 a ha), fun b hb ↦ ho.name b (hgrow 1 b hb), ho.going⟩
  | answer h => exact ⟨ho.size, ho.name, ho.going⟩

/-- **Who is on track to the end has transferred the file**, if the name can be opened. -/
theorem Inv.transferred (hu : Valid sv u) (hs : s.Inv sv u) (ho : s.OnTrack u)
    (hopen : sv.openable u.name) (hdone : s.session.pc = .done) (hend : s.client.Ended) :
    s.Transferred sv u := by
  obtain ⟨a, b, y, z, rest, hr, -, hname, hopened, hwritten⟩ := hs.heard.eq_cons (.inr hdone)
  have hb := ho.name b (by simp [hr])
  rw [hb, cString_buffer hu.name_nul hu.name_lt] at hname
  rw [hname, if_pos hopen] at hopened
  refine ⟨hs.accepts hu ho (by simp [hdone]), hopened, ?_⟩
  have hstream := hs.stream
  rw [(hs.drained hdone).1, hs.client.sent_of_closed (hend.resolve_right ho.going), hr,
    ho.size a (by simp [hr]), hb] at hstream
  rw [hwritten, hopened, Option.isSome_some, if_pos rfl]
  simpa using hstream

/-- **Who has transferred the file was on track.**  The pieces of the stream have the right lengths
in no other case. -/
theorem Inv.onTrack (hu : Valid sv u) (hs : s.Inv sv u) (ht : s.Transferred sv u)
    (hdone : s.session.pc = .done) (hend : s.client.Ended) : sv.openable u.name ∧ s.OnTrack u := by
  obtain ⟨a, b, y, z, rest, hr, -, hname, hopened, hwritten⟩ := hs.heard.eq_cons (.inr hdone)
  obtain ⟨hnul, -, hle, -⟩ := hu.size_msg
  have hstream := hs.stream
  rw [(hs.drained hdone).1, List.append_nil, hr, List.flatten_cons, List.flatten_cons] at hstream
  rw [ht.opened] at hopened hwritten
  rw [ht.written, Option.isSome_some, if_pos rfl] at hwritten
  rw [← hwritten] at hstream
  obtain ⟨hopen, hnames⟩ : sv.openable s.session.fileName ∧ s.session.fileName = u.name := by
    split at hopened
    case isTrue hopen => exact ⟨hopen, (Option.some.inj hopened).symm⟩
    case isFalse => cases hopened
  rw [hnames] at hopen hname
  -- the second piece is as long as the name, or longer
  have hblen : u.name.length ≤ b.length := by
    rcases Nat.lt_or_ge b.length buffSize with hlt | hge
    · rw [hname]
      exact length_cString_buffer_le hlt z
    · exact (hu.name_lt.trans_le hge).le
  have hclosed : s.client.pc = .closed := by
    refine hend.resolve_right fun hfailed ↦ ?_
    rw [Client.sent_of_told (.inr (.inr hfailed))] at hstream
    have hlen := congrArg List.length hstream
    have hname_pos := List.length_pos_iff.mpr hu.name_ne_nil
    have ha_pos := List.length_pos_iff.mpr (hs.first a (by simp [hr]))
    simp only [List.length_append] at hlen
    omega
  rw [hs.client.sent_of_closed hclosed, ← List.append_assoc] at hstream
  have heq : a ++ b = decimal u.size ++ u.name := List.append_cancel_right hstream
  have hbnul : 0 ∉ b := by
    intro hmem
    have hmem' : 0 ∈ decimal u.size ++ u.name := heq ▸ List.mem_append_right a hmem
    rcases List.mem_append.mp hmem' with h | h
    · exact hnul h
    · exact hu.name_nul h
  have hblen' : b.length ≤ u.name.length := hname ▸ length_le_cString_buffer hbnul z
  obtain ⟨ha, hb⟩ := List.append_inj' heq (le_antisymm hblen' hblen)
  exact ⟨hopen, by simp [hr, ha], by simp [hr, hb], by simp [hclosed]⟩

/-- **The file is transferred by exactly the segmentations that keep the messages apart**, if the
server can open the name; and every run comes to its end. -/
theorem transferred_iff (hu : Valid sv u) {es : List NetEvent}
    (h : Run.exec (step sv u) start es = some s) :
    es.length ≤ 2 * ((decimal u.size).length + u.name.length + u.file.length) + 9 ∧
      ((∀ e, s.step sv u e = none) →
        (s.Transferred sv u ↔
          sv.openable u.name ∧ Run.Meets (step sv u) (Segmented u) start es)) := by
  refine ⟨length_le_of_exec hu.size_eq h, fun hstuck ↦ ?_⟩
  have hs : s.Inv sv u :=
    Run.exec_induction (fun _ _ _ hs hst ↦ hs.step hu.size_eq (moves_of_step hst))
      (start_inv sv u) h
  have hmeets : Run.Always (step sv u) (OnTrack u) start es ↔
      Run.Meets (step sv u) (Segmented u) start es :=
    Run.always_iff_meets (I := fun s ↦ Inv sv u s ∧ OnTrack u s)
      (fun _ _ _ hs hok hst ↦ ⟨hs.1.step hu.size_eq (moves_of_step hst),
        (hs.1.onTrack_iff hu hs.2 (moves_of_step hst)).mpr hok⟩)
      (fun _ hs ↦ hs.2) (fun _ _ _ hs hst ↦ (hs.1.onTrack_iff hu hs.2 (moves_of_step hst)).mp)
      ⟨start_inv sv u, by simp [start], by simp [start], by simp [start, Client.start]⟩
  obtain ⟨hdone, hend⟩ := hs.ended_of_stuck hu.size_eq hstuck
  rw [← hmeets]
  constructor
  · intro ht
    obtain ⟨hopen, ho⟩ := hs.onTrack hu ht hdone hend
    exact ⟨hopen, Run.always_of_exec (I := fun _ ↦ True) (fun _ _ _ _ _ ↦ trivial)
      (fun _ _ _ _ hst ↦ onTrack_of_step (moves_of_step hst)) trivial h ho⟩
  · rintro ⟨hopen, halways⟩
    exact hs.transferred hu (halways.of_exec h) hopen hdone hend

/-- A server that takes four bytes under any name. -/
def sampleServer : Server := ⟨4, fun _ ↦ true⟩

/-- A file of one byte. -/
def sampleUpload : Upload := ⟨[120], [102]⟩

theorem sampleUpload_valid : Valid sampleServer sampleUpload := by
  constructor <;> decide

/-- The second `recv` returns the name together with the data. -/
def mergedEvents : List NetEvent :=
  [.client [], .recv 1 [], .answer, .client [], .client [], .client [], .client [], .recv 2 [],
    .recv 0 []]

theorem exec_mergedEvents :
    Run.exec (step sampleServer sampleUpload) start mergedEvents =
      some ⟨⟨.closed, 0, 1⟩, [], [], ⟨.done, 1, [102, 120], some [102, 120], []⟩,
        [[49], [102, 120], []]⟩ := by
  decide

/-- A run can end with an empty file of another name. -/
theorem exists_not_transferred :
    ∃ sv u es s, Valid sv u ∧ sv.openable u.name ∧ Run.exec (step sv u) start es = some s ∧
      (∀ e, s.step sv u e = none) ∧ s.session.opened ≠ some u.name ∧ s.session.written ≠ u.file :=
  ⟨_, _, mergedEvents, _, sampleUpload_valid, rfl, exec_mergedEvents,
    stuck_of_ended rfl (.inl rfl), by decide, by decide⟩

theorem transferred_iff_sample :
    ¬Run.Meets (step sampleServer sampleUpload) (Segmented sampleUpload) start mergedEvents := by
  intro hmeets
  obtain ⟨-, hiff⟩ := transferred_iff sampleUpload_valid exec_mergedEvents
  have ht := (hiff (stuck_of_ended rfl (.inl rfl))).mpr ⟨rfl, hmeets⟩
  exact absurd ht.written (by decide)

end Net

end Ftp
