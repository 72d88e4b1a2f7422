import Mathlib.Data.Int.Notation
import Mathlib.Data.List.Basic
import OsExercises.ForMathlib.Run

/-!
# The accept loop and its workers

The server's `main` stores what `accept` returns in its variable `clientFd`, registers the client,
creates a worker with the address of that same variable, and goes round.  The worker reads the
descriptor through the address when it gets to run.

* `Loop.step` lets the loop and the workers take their steps in any order, and `Loop.Moves` says
  once which steps there are.
* `Loop.always_served_iff` says in which runs every connection gets its own worker: those in which
  every worker is quicker than the next `accept`, and nothing ends the loop.
-/

set_option autoImplicit false

namespace Ftp

/-- Where the loop is: before `accept`, before `_clients[clientFd] = client`, before
`pthread_create`, or behind the loop. -/
inductive LoopPc
  | accept
  | register
  | create
  | ended
  deriving DecidableEq, Repr

/-- A worker. -/
structure Worker where
  /-- The connection it was created for. -/
  createdFor : ℤ
  /-- How often `accept` had returned when it was created. -/
  since : ℕ
  /-- The descriptor it read, once it has. -/
  served : Option ℤ
  deriving DecidableEq, Repr

/-- The loop, its variables, and the workers it has created. -/
structure Loop where
  pc : LoopPc
  clientFd : ℤ
  /-- The keys of `_clients`. -/
  clients : List ℤ
  /-- How often `accept` has returned. -/
  accepts : ℕ
  /-- The connections it has returned. -/
  accepted : List ℤ
  workers : List Worker
  deriving DecidableEq, Repr

/-- What can happen: `accept` returns, the client is registered, `pthread_create` succeeds or fails,
or a worker takes its first step. -/
inductive LoopEvent
  | accept (r : ℤ)
  | register
  | create (ok : Bool)
  | read (i : ℕ)
  deriving DecidableEq, Repr

namespace Loop

variable {s t : Loop} {e : LoopEvent}

/-- The loop starts with whatever the variable holds. -/
def start (clientFd : ℤ) : Loop := ⟨.accept, clientFd, [], 0, [], []⟩

/-- `accept` returns.  It ends the loop with zero, and a negative result starts the next round. -/
def accept (s : Loop) (r : ℤ) : Loop :=
  { s with
    pc := if r = 0 then .ended else if r < 0 then .accept else .register
    clientFd := r
    accepts := s.accepts + 1
    accepted := if 0 ≤ r then r :: s.accepted else s.accepted }

/-- `pthread_create` returns. -/
def create (s : Loop) (ok : Bool) : Loop :=
  if ok then
    { s with pc := .accept, workers := s.workers ++ [⟨s.clientFd, s.accepts, none⟩] }
  else { s with pc := .ended }

/-- A worker reads the descriptor. -/
def read (s : Loop) (i : ℕ) (w : Worker) : Loop :=
  { s with workers := s.workers.set i { w with served := some s.clientFd } }

/-- A step of the loop or of a worker.  No descriptor is closed while the loop runs, so `accept`
returns new ones. -/
def step (s : Loop) : LoopEvent → Option Loop
  | .accept r => if s.pc = .accept ∧ r ∉ s.accepted then some (s.accept r) else none
  | .register =>
    if s.pc = .register then
      some { s with pc := .create, clients := s.clients.insert s.clientFd }
    else none
  | .create ok => if s.pc = .create then some (s.create ok) else none
  | .read i =>
    match s.workers[i]? with
    | some w => if w.served = none then some (s.read i w) else none
    | none => none

/-- The steps of the loop and the workers, one by one. -/
inductive Moves (s : Loop) : LoopEvent → Loop → Prop
  | accept (hpc : s.pc = .accept) (r : ℤ) (hr : r ∉ s.accepted) : Moves s (.accept r) (s.accept r)
  | register (hpc : s.pc = .register) :
      Moves s .register { s with pc := .create, clients := s.clients.insert s.clientFd }
  | create (hpc : s.pc = .create) (ok : Bool) : Moves s (.create ok) (s.create ok)
  | read (i : ℕ) (w : Worker) (hw : s.workers[i]? = some w) (hserved : w.served = none) :
      Moves s (.read i) (s.read i w)

/-- **What one step can do.** -/
theorem step_eq_some_iff : s.step e = some t ↔ Moves s e t := by
  constructor
  · intro h
    cases e with
    | accept r =>
      rw [step] at h
      split at h
      case isFalse => cases h
      case isTrue hr => exact Option.some.inj h ▸ .accept hr.1 r hr.2
    | register =>
      rw [step] at h
      split at h
      case isFalse => cases h
      case isTrue hpc => exact Option.some.inj h ▸ .register hpc
    | create ok =>
      rw [step] at h
      split at h
      case isFalse => cases h
      case isTrue hpc => exact Option.some.inj h ▸ .create hpc ok
    | read i =>
      simp only [step] at h
      split at h
      case h_1 w hw =>
        split at h
        case isFalse => cases h
        case isTrue hserved => exact Option.some.inj h ▸ .read i w hw hserved
      case h_2 => cases h
  · intro h
    cases h with
    | accept hpc r hr => simp [step, hpc, hr]
    | register hpc => simp [step, hpc]
    | create hpc ok => simp [step, hpc]
    | read i w hw hserved => simp [step, hw, hserved]

/-! ## Every connection gets its own worker -/

/-- The loop has a connection it has not created a worker for yet. -/
def Busy (s : Loop) : Prop := s.pc = .register ∨ s.pc = .create

/-- Every accepted connection gets its own worker. -/
structure Served (s : Loop) : Prop where
  /-- A worker serves the connection it was created for. -/
  own : ∀ w ∈ s.workers, ∀ fd, w.served = some fd → fd = w.createdFor
  /-- No two workers serve the same connection. -/
  distinct : s.workers.Pairwise fun v w ↦ ∀ fd, v.served = some fd → w.served ≠ some fd
  /-- No connection is left without a worker, except for one the loop is busy with. -/
  covered : ∀ fd ∈ s.accepted, (∃ w ∈ s.workers, w.createdFor = fd) ∨ s.Busy ∧ s.clientFd = fd

/-- Nothing ends the loop (no connection gets the descriptor 0, and `pthread_create` succeeds), and
a worker that reads the descriptor was created after the last return of `accept`. -/
def InTime (s : Loop) : LoopEvent → Prop
  | .accept r => r ≠ 0
  | .register => True
  | .create ok => ok = true
  | .read i => ∀ w, s.workers[i]? = some w → w.since = s.accepts

/-- The invariant of the runs in which every worker is in time. -/
structure Inv (s : Loop) : Prop where
  own : ∀ w ∈ s.workers, ∀ fd, w.served = some fd → fd = w.createdFor
  covered : ∀ fd ∈ s.accepted, (∃ w ∈ s.workers, w.createdFor = fd) ∨ s.Busy ∧ s.clientFd = fd
  /-- Workers are created for different connections. -/
  nodup : (s.workers.map Worker.createdFor).Nodup
  /-- Workers are created for connections. -/
  accepted : ∀ w ∈ s.workers, w.createdFor ∈ s.accepted
  /-- The variable holds the descriptor of the workers created after the last `accept` only. -/
  current : ∀ w ∈ s.workers, w.since ≤ s.accepts ∧ (w.since = s.accepts ↔ s.clientFd = w.createdFor)
  /-- The connection the loop is busy with is a new one. -/
  busy : s.Busy → s.clientFd ∈ s.accepted ∧ ∀ w ∈ s.workers, w.createdFor ≠ s.clientFd

theorem start_inv (fd : ℤ) : Inv (start fd) := by
  constructor <;> simp [start, Busy]

theorem Inv.served (hs : s.Inv) : s.Served := by
  have hdistinct : s.workers.Pairwise fun v w ↦ v.createdFor ≠ w.createdFor :=
    List.pairwise_map.mp hs.nodup
  refine ⟨hs.own, ?_, hs.covered⟩
  refine hdistinct.imp_of_mem fun {v w} hv hw hne fd hfd hfd' ↦ hne ?_
  rw [← hs.own v hv fd hfd, ← hs.own w hw fd hfd']

/-- Reading the descriptor changes a worker in nothing else. -/
theorem mem_workers_read {i : ℕ} {w v : Worker} (hw : s.workers[i]? = some w)
    (hv : v ∈ (s.read i w).workers) :
    ∃ u ∈ s.workers, v.createdFor = u.createdFor ∧ v.since = u.since ∧
      (v = u ∨ u = w ∧ v.served = some s.clientFd) := by
  rcases List.mem_or_eq_of_mem_set hv with hmem | rfl
  · exact ⟨v, hmem, rfl, rfl, .inl rfl⟩
  · exact ⟨w, List.mem_of_getElem? hw, rfl, rfl, .inr ⟨rfl, rfl⟩⟩

theorem map_createdFor_read {i : ℕ} {w : Worker} (hw : s.workers[i]? = some w) :
    (s.read i w).workers.map Worker.createdFor = s.workers.map Worker.createdFor := by
  obtain ⟨hi, rfl⟩ := List.getElem?_eq_some_iff.mp hw
  rw [read, List.map_set]
  refine List.ext_getElem (by simp) fun k _ _ ↦ ?_
  rw [List.getElem_set]
  split
  case isTrue hik =>
    subst hik
    simp
  case isFalse => rfl

/-- A connection that is accepted keeps the loop busy. -/
theorem Inv.after_accept (hs : s.Inv) (hpc : s.pc = .accept) {r : ℤ} (hr : r ∉ s.accepted)
    (hr0 : r ≠ 0) : (s.accept r).Inv := by
  have hidle : ¬s.Busy := by simp [Busy, hpc]
  have hne : ∀ w ∈ s.workers, w.createdFor ≠ r := by
    rintro w hw rfl
    exact hr (hs.accepted w hw)
  have hsub : ∀ fd, fd ∈ s.accepted → fd ∈ (s.accept r).accepted := by
    intro fd hfd
    simp only [accept]
    split
    · exact List.mem_cons_of_mem _ hfd
    · exact hfd
  refine ⟨hs.own, fun fd hfd ↦ ?_, hs.nodup, fun w hw ↦ hsub _ (hs.accepted w hw),
    fun w hw ↦ ?_, fun hbusy ↦ ?_⟩
  · simp only [accept] at hfd
    split at hfd
    case isTrue hpos =>
      rcases List.mem_cons.mp hfd with rfl | hfd
      · exact .inr ⟨.inl (by simp [accept, hr0, Int.not_lt.mpr hpos]), rfl⟩
      · exact .inl ((hs.covered fd hfd).resolve_right fun h ↦ hidle h.1)
    case isFalse => exact .inl ((hs.covered fd hfd).resolve_right fun h ↦ hidle h.1)
  · have hle := (hs.current w hw).1
    refine ⟨Nat.le_succ_of_le hle, fun h ↦ ?_, fun h ↦ absurd h.symm (hne w hw)⟩
    have : w.since = s.accepts + 1 := h
    omega
  · have hpos : 0 ≤ r := by
      by_contra hneg
      simp [Busy, accept, hr0, Int.not_le.mp hneg] at hbusy
    exact ⟨by simp [accept, hpos], hne⟩

/-- The connection the loop is busy with gets its worker. -/
theorem Inv.after_create (hs : s.Inv) (hpc : s.pc = .create) : (s.create true).Inv := by
  obtain ⟨hacc, hnew⟩ := hs.busy (.inr hpc)
  have hmem : ∀ w ∈ (s.create true).workers, w ∈ s.workers ∨ w = ⟨s.clientFd, s.accepts, none⟩ :=
    fun w hw ↦ by simpa [create] using hw
  refine ⟨fun w hw fd hfd ↦ ?_, fun fd hfd ↦ .inl ?_, ?_, fun w hw ↦ ?_, fun w hw ↦ ?_,
    by simp [Busy, create]⟩
  · rcases hmem w hw with hw | rfl
    · exact hs.own w hw fd hfd
    · cases hfd
  · rcases hs.covered fd hfd with ⟨w, hw, hfor⟩ | ⟨-, rfl⟩
    · exact ⟨w, by simp [create, hw], hfor⟩
    · exact ⟨⟨s.clientFd, s.accepts, none⟩, by simp [create], rfl⟩
  · simpa [create, List.nodup_append] using ⟨hs.nodup, hnew⟩
  · rcases hmem w hw with hw | rfl
    · exact hs.accepted w hw
    · exact hacc
  · rcases hmem w hw with hw | rfl
    · exact hs.current w hw
    · exact ⟨Nat.le_refl _, fun _ ↦ rfl, fun _ ↦ rfl⟩

/-- A worker that reads in time reads the descriptor it was created for. -/
theorem Inv.after_read (hs : s.Inv) {i : ℕ} {w : Worker} (hw : s.workers[i]? = some w)
    (hfd : s.clientFd = w.createdFor) : (s.read i w).Inv := by
  refine ⟨fun v hv fd hvfd ↦ ?_, fun fd hfd ↦ ?_, ?_, fun v hv ↦ ?_, fun v hv ↦ ?_,
    fun hbusy ↦ ⟨(hs.busy hbusy).1, fun v hv ↦ ?_⟩⟩
  · obtain ⟨u, hu, hfor, -, rfl | ⟨rfl, hread⟩⟩ := mem_workers_read hw hv
    · exact hs.own v hu fd hvfd
    · rw [hfor, ← hfd]
      exact (Option.some.inj (hread.symm.trans hvfd)).symm
  · refine (hs.covered fd hfd).imp_left fun hex ↦ ?_
    have hmap : fd ∈ (s.read i w).workers.map Worker.createdFor := by
      rw [map_createdFor_read hw]
      simpa using hex
    simpa using hmap
  · rw [map_createdFor_read hw]
    exact hs.nodup
  · obtain ⟨u, hu, hfor, -⟩ := mem_workers_read hw hv
    exact hfor ▸ hs.accepted u hu
  · obtain ⟨u, hu, hfor, hsince, -⟩ := mem_workers_read hw hv
    rw [hfor, hsince]
    exact hs.current u hu
  · obtain ⟨u, hu, hfor, -⟩ := mem_workers_read hw hv
    exact hfor ▸ (hs.busy hbusy).2 u hu

/-- **A step in time keeps the invariant.** -/
theorem Inv.step (hs : s.Inv) (hok : s.InTime e) (h : Moves s e t) : t.Inv := by
  rcases h with ⟨hpc, r, hr⟩ | ⟨hpc⟩ | ⟨hpc, ok⟩ | ⟨i, w, hw, -⟩
  · exact hs.after_accept hpc hr hok
  · have hbusy : s.Busy := .inl hpc
    refine ⟨hs.own, fun fd hfd ↦ ?_, hs.nodup, hs.accepted, hs.current, fun _ ↦ hs.busy hbusy⟩
    exact (hs.covered fd hfd).imp_right fun h ↦ ⟨.inr rfl, h.2⟩
  · obtain rfl : ok = true := hok
    exact hs.after_create hpc
  · exact hs.after_read hw ((hs.current w (List.mem_of_getElem? hw)).2.mp (hok w hw))

/-- **A late step costs a connection its worker.** -/
theorem Inv.inTime (hs : s.Inv) (h : Moves s e t) (ht : t.Served) : s.InTime e := by
  cases h with
  | accept hpc r hr =>
    rintro rfl
    rcases ht.covered 0 (by simp [accept]) with ⟨w, hw, hfor⟩ | ⟨hbusy, -⟩
    · exact hr (hfor ▸ hs.accepted w hw)
    · simp [Busy, accept] at hbusy
  | register hpc => trivial
  | create hpc ok =>
    by_contra hok
    obtain rfl : ok = false := Bool.eq_false_iff.mpr hok
    obtain ⟨hacc, hnew⟩ := hs.busy (.inr hpc)
    rcases ht.covered s.clientFd hacc with ⟨w, hw, hfor⟩ | ⟨hbusy, -⟩
    · exact hnew w hw hfor
    · simp [Busy, create] at hbusy
  | read i w hw hserved =>
    intro w' hw'
    obtain rfl : w = w' := Option.some.inj (hw.symm.trans hw')
    have hread : { w with served := some s.clientFd } ∈ (s.read i w).workers :=
      List.mem_set (List.getElem?_eq_some_iff.mp hw).1 _
    exact (hs.current w (List.mem_of_getElem? hw)).2.mpr (ht.own _ hread _ rfl)

/-- **Every connection gets its own worker in exactly the runs in which all steps are in time.** -/
theorem always_served_iff (fd : ℤ) (es : List LoopEvent) :
    Run.Always step Served (start fd) es ↔ Run.Meets step InTime (start fd) es :=
  Run.always_iff_meets (I := Inv) (fun _ _ _ hs hok h ↦ hs.step hok (step_eq_some_iff.mp h))
    (fun _ hs ↦ hs.served) (fun _ _ _ hs h ht ↦ hs.inTime (step_eq_some_iff.mp h) ht) (start_inv fd)

/-- Two connections are accepted before the first worker gets to run. -/
def lateEvents : List LoopEvent :=
  [.accept 4, .register, .create true, .accept 5, .read 0, .register, .create true, .read 1]

theorem exec_lateEvents (fd : ℤ) :
    Run.exec step (start fd) lateEvents =
      some ⟨.accept, 5, [5, 4], 2, [5, 4], [⟨4, 1, some 5⟩, ⟨5, 2, some 5⟩]⟩ := by
  rfl

/-- Both workers serve the second connection, and nobody serves the first. -/
theorem exists_not_served :
    ∃ fd es s, Run.exec step (start fd) es = some s ∧ s.accepted = [5, 4] ∧
      s.workers.map Worker.createdFor = [4, 5] ∧ s.workers.map Worker.served = [some 5, some 5] :=
  ⟨0, lateEvents, _, exec_lateEvents 0, rfl, rfl, rfl⟩

end Loop

end Ftp
