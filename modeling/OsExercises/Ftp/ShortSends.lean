import OsExercises.Ftp.Client
import OsExercises.ForMathlib.Run

/-!
# Sends that transfer less

`sendMsgToServer` ends the process when `send` fails.  Otherwise it ignores how many bytes `send`
has transferred, and the client goes on as if that had been all of them.

* `Sending` is a client with what has really been transferred.
* `delivered_iff`: when `writeToServer` returns, the server was sent the size, the name and the file
  exactly if every single `send` has transferred its whole message.
-/

set_option autoImplicit false

namespace Ftp

open CLib

/-- A client, and what its calls of `send` have transferred. -/
structure Sending where
  client : Client
  delivered : List UInt8
  deriving DecidableEq, Repr

/-- The next call of the client: what it can receive, what is behind the buffer for this, and what
`send` returns, if it is called and does not fail. -/
structure SendEvent where
  reply : List UInt8
  beyond : List UInt8
  sent : Option ℕ
  deriving DecidableEq, Repr

/-- The next call of a client is one of `sendMsgToServer`. -/
def Client.sends (u : Upload) (c : Client) : Bool :=
  match c.pc with
  | .size => 0 ≤ u.size
  | .name => true
  | .data => c.toSend ≠ 0
  | .answer | .closed | .failed => false

namespace Sending

variable {u : Upload} {s t : Sending} {e : SendEvent} {c : Client} {msg rest : List UInt8}

def start : Sending := ⟨Client.start, []⟩

/-- A step of the client with `sendMsgToServer`. -/
def step (u : Upload) (s : Sending) (e : SendEvent) : Option Sending :=
  match s.client.step u e.reply e.beyond with
  | none => none
  | some (c, msg, _) =>
    if s.client.sends u then
      match e.sent with
      | none => some ⟨{ s.client with pc := .failed }, s.delivered⟩
      | some k => some ⟨c, s.delivered ++ msg.take k⟩
    else some ⟨c, s.delivered⟩

/-- A message is transferred as a whole. -/
def Whole (u : Upload) (s : Sending) (e : SendEvent) : Prop :=
  s.client.sends u = true → ∀ c msg rest, s.client.step u e.reply e.beyond = some (c, msg, rest) →
    ∀ k, e.sent = some k → msg.length ≤ k

/-- The steps, one by one. -/
inductive Moves (u : Upload) (s : Sending) (e : SendEvent) : Sending → Prop
  | quiet (c : Client) (rest : List UInt8) (hsends : s.client.sends u = false)
      (h : Client.Moves u s.client e.reply e.beyond c [] rest) : Moves u s e ⟨c, s.delivered⟩
  | fail (hsends : s.client.sends u = true) (hsent : e.sent = none) :
      Moves u s e ⟨{ s.client with pc := .failed }, s.delivered⟩
  | send (c : Client) (msg rest : List UInt8) (k : ℕ) (hsends : s.client.sends u = true)
      (hstep : s.client.step u e.reply e.beyond = some (c, msg, rest))
      (h : Client.Moves u s.client e.reply e.beyond c msg rest) (hsent : e.sent = some k) :
      Moves u s e ⟨c, s.delivered ++ msg.take k⟩

/-- A call that is not one of `sendMsgToServer` sends nothing. -/
theorem eq_nil_of_moves {reply beyond : List UInt8} (hsends : c.sends u = false) {c' : Client}
    (h : Client.Moves u c reply beyond c' msg rest) : msg = [] := by
  cases h with
  | unreadable | answer | close => rfl
  | size hpc hpos => simp [Client.sends, hpc, hpos] at hsends
  | name hpc => simp [Client.sends, hpc] at hsends
  | chunk hpc n hn =>
    have hzero : c.toSend = 0 := by simpa [Client.sends, hpc] using hsends
    have hbuff : (0 : ℤ) < buffSize := by decide
    omega

/-- **What one step can do.** -/
theorem moves_of_step (h : s.step u e = some t) : Moves u s e t := by
  rw [step] at h
  split at h
  case h_1 => cases h
  case h_2 c msg rest hstep =>
    have hmoves := Client.moves_of_step hstep
    split at h
    case isTrue hsends =>
      split at h
      case h_1 hsent => exact Option.some.inj h ▸ .fail hsends hsent
      case h_2 k hsent => exact Option.some.inj h ▸ .send c msg rest k hsends hstep hmoves hsent
    case isFalse hsends =>
      have hno : s.client.sends u = false := Bool.eq_false_iff.mpr hsends
      obtain rfl := eq_nil_of_moves hno hmoves
      exact Option.some.inj h ▸ .quiet c rest hno hmoves

/-! ## What is missing -/

/-- Unless the client has given up, no more was transferred than it believes to have sent, and
nothing else if it was as much. -/
structure Inv (u : Upload) (s : Sending) : Prop where
  client : s.client.pc ≠ .failed → s.client.Inv u
  length_le : s.client.pc ≠ .failed → s.delivered.length ≤ (s.client.sent u).length
  eq_of_length : s.client.pc ≠ .failed → s.delivered.length = (s.client.sent u).length →
    s.delivered = s.client.sent u

/-- All that the client believes to have sent was transferred, unless it has given up. -/
def Complete (u : Upload) (s : Sending) : Prop :=
  s.client.pc ≠ .failed → s.delivered = s.client.sent u

theorem start_inv (u : Upload) : Inv u start :=
  ⟨fun _ ↦ Client.start_inv u, fun _ ↦ Nat.le_refl _, fun _ _ ↦ rfl⟩

/-- A client that has given up makes no calls. -/
theorem Moves.pc_ne (h : Moves u s e t) : s.client.pc ≠ .failed := by
  have hne : ∀ {c msg rest}, Client.Moves u s.client e.reply e.beyond c msg rest →
      s.client.pc ≠ .failed := by
    intro c msg rest hmoves
    cases hmoves with
    | unreadable hpc | size hpc | answer hpc | name hpc | chunk hpc | close hpc => simp [hpc]
  cases h with
  | quiet c rest _ hmoves => exact hne hmoves
  | fail hsends =>
    intro hpc
    simp [Client.sends, hpc] at hsends
  | send c msg rest k _ _ hmoves => exact hne hmoves

/-- What a call adds to what was transferred, and to what the client believes to have sent. -/
theorem Moves.adds (hsize : u.size = u.file.length) (hs : s.Inv u) (h : Moves u s e t) :
    t.client.pc = .failed ∨ t.client.Inv u ∧ ∃ msg k, t.delivered = s.delivered ++ msg.take k ∧
      t.client.sent u = s.client.sent u ++ msg ∧ (Whole u s e ↔ msg.length ≤ k) := by
  have hc := hs.client h.pc_ne
  cases h with
  | quiet c rest hsends hmoves =>
    obtain ⟨hinv, hsent⟩ := hmoves.sent hsize hc
    refine .inr ⟨hinv, [], 0, by simp, hsent, iff_of_true (fun htrue ↦ ?_) (Nat.le_refl _)⟩
    rw [hsends] at htrue
    cases htrue
  | fail => exact .inl rfl
  | send c msg rest k hsends hstep hmoves hsent =>
    obtain ⟨hinv, hsent'⟩ := hmoves.sent hsize hc
    refine .inr ⟨hinv, msg, k, rfl, hsent', fun hwhole ↦ hwhole hsends _ _ _ hstep k hsent, ?_⟩
    intro hle _ c' msg' rest' hstep' k' hk'
    obtain ⟨-, rfl, -⟩ := Client.eq_of_some (hstep.symm.trans hstep')
    exact Option.some.inj (hsent.symm.trans hk') ▸ hle

/-- **A step keeps the invariant.** -/
theorem Inv.step (hsize : u.size = u.file.length) (hs : s.Inv u) (h : Moves u s e t) :
    t.Inv u := by
  have hpc := h.pc_ne
  rcases h.adds hsize hs with hfailed | ⟨hinv, msg, k, hdelivered, hsent, -⟩
  · exact ⟨fun h ↦ absurd hfailed h, fun h ↦ absurd hfailed h, fun h ↦ absurd hfailed h⟩
  · have hle := hs.length_le hpc
    have htake : (msg.take k).length ≤ msg.length := List.length_take_le' k msg
    refine ⟨fun _ ↦ hinv, fun _ ↦ ?_, fun _ hlen ↦ ?_⟩
    · rw [hdelivered, hsent, List.length_append, List.length_append]
      omega
    · rw [hdelivered, hsent, List.length_append, List.length_append] at hlen
      have hmsg : msg.take k = msg :=
        (List.take_prefix k msg).eq_of_length (by omega)
      rw [hdelivered, hsent, hmsg, hs.eq_of_length hpc (by omega)]

/-- **What was transferred stays complete exactly if the next message is transferred whole.** -/
theorem complete_step_iff (hsize : u.size = u.file.length) (hs : s.Inv u) (h : Moves u s e t)
    (ht : t.client.pc ≠ .failed) :
    t.delivered = t.client.sent u ↔ s.delivered = s.client.sent u ∧ Whole u s e := by
  obtain ⟨-, msg, k, hdelivered, hsent, hwhole⟩ := (h.adds hsize hs).resolve_left ht
  rw [hdelivered, hsent, hwhole]
  constructor
  · intro heq
    have hlen := congrArg List.length heq
    have hle := hs.length_le h.pc_ne
    rw [List.length_append, List.length_append, List.length_take] at hlen
    exact ⟨hs.eq_of_length h.pc_ne (by omega), by omega⟩
  · rintro ⟨heq, hle⟩
    rw [heq, List.take_of_length_le hle]

/-- A client that gives up does not do so over a message that was cut short. -/
theorem Moves.whole_of_failed (h : Moves u s e t) (ht : t.client.pc = .failed) :
    Whole u s e := by
  intro hsends c msg rest hstep k hk
  cases h with
  | quiet c rest hno => simp [hno] at hsends
  | fail _ hsent =>
    rw [hsent] at hk
    cases hk
  | send c' msg' rest' k' _ _ hmoves =>
    cases hmoves with
    | unreadable hpc hneg => simp [Client.sends, hpc, not_le.mpr hneg] at hsends
    | size | name => cases ht
    | answer hpc => simp [Client.sends, hpc] at hsends
    | chunk hpc => simp [Client.sendChunk, hpc] at ht
    | close hpc => cases ht

theorem always_complete_iff_meets (hsize : u.size = u.file.length) {es : List SendEvent} :
    Run.Always (step u) (Complete u) start es ↔ Run.Meets (step u) (Whole u) start es := by
  refine Run.always_iff_meets (I := fun s ↦ Inv u s ∧ Complete u s) (fun s e t hs hok hst ↦ ?_)
    (fun _ hs ↦ hs.2) (fun s e t hs hst hP ↦ ?_) ⟨start_inv u, fun _ ↦ rfl⟩
  · have hmoves := moves_of_step hst
    exact ⟨hs.1.step hsize hmoves,
      fun ht ↦ (complete_step_iff hsize hs.1 hmoves ht).mpr ⟨hs.2 hmoves.pc_ne, hok⟩⟩
  · have hmoves := moves_of_step hst
    by_cases ht : t.client.pc = .failed
    · exact hmoves.whole_of_failed ht
    · exact ((complete_step_iff hsize hs.1 hmoves ht).mp (hP ht)).2

/-- **When `writeToServer` returns, everything was transferred exactly if every message was**, for a
file whose length is an `int`. -/
theorem delivered_iff (hsize : u.size = u.file.length) {es : List SendEvent}
    (h : Run.exec (step u) start es = some s) (hclosed : s.client.pc = .closed) :
    s.delivered = decimal u.size ++ u.name ++ u.file ↔
      Run.Meets (step u) (Whole u) start es := by
  have hI : ∀ s e t, Inv u s → step u s e = some t → Inv u t :=
    fun _ _ _ hs hst ↦ hs.step hsize (moves_of_step hst)
  have hne : s.client.pc ≠ .failed := by simp [hclosed]
  have hs : s.Inv u := Run.exec_induction hI (start_inv u) h
  rw [← (hs.client hne).sent_of_closed hclosed, ← always_complete_iff_meets hsize]
  constructor
  · intro hdelivered
    -- what is missing is never made up for
    have hall : Run.Always (step u)
        (fun s ↦ s.client.pc ≠ .failed ∧ s.delivered = s.client.sent u) start es :=
      Run.always_of_exec hI
        (fun _ _ _ hs hst ht ↦ ⟨(moves_of_step hst).pc_ne,
          ((complete_step_iff hsize hs (moves_of_step hst) ht.1).mp ht.2).1⟩)
        (start_inv u) h ⟨hne, hdelivered⟩
    exact hall.imp fun _ hs _ ↦ hs.2
  · intro hall
    exact hall.of_exec h hne

/-- Of three bytes, the last `send` transfers two. -/
def shortEvents : List SendEvent :=
  [⟨[], [], some 1⟩, ⟨[48], [0], none⟩, ⟨[], [], some 1⟩, ⟨[], [], some 2⟩, ⟨[], [], none⟩]

theorem delivered_iff_sample :
    Run.exec (step ⟨[1, 2, 3], [97]⟩) start shortEvents =
        some ⟨⟨.closed, 0, 3⟩, [51, 97, 1, 2]⟩ ∧
      ¬Run.Meets (step ⟨[1, 2, 3], [97]⟩) (Whole ⟨[1, 2, 3], [97]⟩) start shortEvents := by
  have hexec : Run.exec (step ⟨[1, 2, 3], [97]⟩) start shortEvents =
      some ⟨⟨.closed, 0, 3⟩, [51, 97, 1, 2]⟩ := by
    decide
  refine ⟨hexec, fun hmeets ↦ ?_⟩
  have hall := (delivered_iff (by decide) hexec rfl).mpr hmeets
  exact absurd hall (by decide)

end Sending

end Ftp
