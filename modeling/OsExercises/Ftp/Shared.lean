import Mathlib.Logic.Function.Basic
import OsExercises.ForMathlib.WriteAt
import OsExercises.Ftp.Session

/-!
# Connections that write to the same files

The workers of the server run at the same time, and each one has an `_output` of its own.  Opening
it empties the file.  What is written to it reaches the file later, in pieces, at the position up to
which this `_output` has reached the file before; nothing stops two workers from opening one file.
A `Shared` is all workers with the files, and what the environment chooses is which worker goes on,
and how much of its data reaches the file.

* `Shared.Moves` says once which steps there are, and `Shared.Inv` what holds in every interleaving.
* `Shared.always_whole_iff` says in which runs every file is what its last opener has sent so far.
* `Shared.files_eq_of_takesTurn`: uploads to a file that do not overlap leave the last one.
* `Shared.always_mixed`: in any run, a file holds data of its openers, each byte at the position
  where it was sent, and zeros in the gaps that are left where one opener cuts another one off.
* `Shared.all_within_iff`: the server keeps to its limit, of all connections and all files,
  exactly as long as all peers do.
-/

set_option autoImplicit false

namespace Ftp

open CLib WriteAt

/-! ## One worker among others -/

namespace Session

variable {sv : Server} {s t : Session} {e : Event}

/-- What holds of a worker, whatever its peer sends. -/
structure Quiet (s : Session) : Prop where
  /-- No file was opened before the second `recv`. -/
  unopened : s.pc = .size ∨ s.pc = .answer ∨ s.pc = .name → s.opened = none
  /-- Nothing is written unless a file was opened. -/
  unwritten : s.opened = none → s.written = []

theorem start_quiet : start.Quiet := ⟨fun _ ↦ rfl, fun _ ↦ rfl⟩

theorem prefix_write (s : Session) (l : List UInt8) : s.written <+: (s.write l).written := by
  rw [write]
  split
  · exact List.prefix_append _ _
  · exact List.prefix_rfl

theorem Quiet.step (hs : s.Quiet) (h : Moves sv s e t) : t.Quiet := by
  cases h with
  | size hpc l beyond hl => exact ⟨fun _ ↦ hs.unopened (.inl hpc), hs.unwritten⟩
  | answer hpc sent => exact ⟨fun _ ↦ hs.unopened (.inr (.inl hpc)), hs.unwritten⟩
  | name hpc l beyond hl =>
    have hwritten := hs.unwritten (hs.unopened (.inr (.inr hpc)))
    exact ⟨by simp [openOutput], fun _ ↦ hwritten⟩
  | data hpc l beyond hne hl =>
    refine ⟨by simp [write, hpc], fun hopen ↦ ?_⟩
    have hnot : s.opened = none := hopen
    rw [write_of_not_open hnot]
    exact hs.unwritten hnot
  | eof hpc l beyond hl => exact ⟨by simp, hs.unwritten⟩
  | fail hpc beyond => exact ⟨by simp, hs.unwritten⟩

/-- A step that opens no file writes at the end of the one that was opened. -/
theorem Quiet.receive (hs : s.Quiet) (h : Moves sv s e t)
    (hpc : s.pc = .name → t.pc = .data → t.opened = none) :
    t.opened = s.opened ∧ s.written <+: t.written := by
  cases h with
  | name hname l beyond hl =>
    have hnone := hs.unopened (.inr (.inr hname))
    exact ⟨(hpc hname rfl).trans hnone.symm, List.prefix_rfl⟩
  | data hdata l beyond hne hl => exact ⟨rfl, s.prefix_write l⟩
  | size | answer | eof | fail => exact ⟨rfl, List.prefix_rfl⟩

end Session

/-! ## All workers and the files -/

/-- The workers of the server, and the files they write.  A worker that was not created yet has not
taken a step. -/
structure Shared (α : Type) where
  sessions : ℕ → Session
  /-- How much of what was written to the `_output` of a worker has reached the file. -/
  flushed : ℕ → ℕ
  files : α → List UInt8
  /-- Which worker has opened a file last. -/
  opener : α → Option ℕ

/-- What can happen: a worker takes a step, or some more of its data reaches the file. -/
inductive SharedEvent
  | worker (i : ℕ) (e : Event)
  | flush (i n : ℕ)

/-- Whose step it is. -/
def SharedEvent.who : SharedEvent → ℕ
  | worker i _ => i
  | flush i _ => i

namespace Shared

section

variable {α : Type} (inode : List UInt8 → α) (s : Shared α)

/-- No worker has been created, and the files are what they are. -/
def start (files : α → List UInt8) : Shared α :=
  ⟨fun _ ↦ Session.start, fun _ ↦ 0, files, fun _ ↦ none⟩

/-- The file a worker has opened.  Two names may lead to the same file. -/
def file (i : ℕ) : Option α := (s.sessions i).opened.map inode

/-- The next `n` bytes that reach the file. -/
def unflushed (i n : ℕ) : List UInt8 := ((s.sessions i).written.drop (s.flushed i)).take n

/-- A worker goes on. -/
def put (i : ℕ) (t : Session) : Shared α := { s with sessions := Function.update s.sessions i t }

end

section

variable {α : Type} [DecidableEq α] (sv : Server) (inode : List UInt8 → α) (s : Shared α)

/-- `_output.open` empties the file. -/
def truncate (i : ℕ) (f : α) : Shared α :=
  { s with
    files := Function.update s.files f []
    opener := Function.update s.opener f (some i) }

/-- Some data reaches the file. -/
def flush (i n : ℕ) (f : α) : Shared α :=
  { s with
    flushed := Function.update s.flushed i (s.flushed i + n)
    files := Function.update s.files f (writeAt 0 (s.files f) (s.flushed i) (s.unflushed i n)) }

/-- The second `recv` is followed by `_output.open`. -/
def openOutput (i : ℕ) (t : Session) : Shared α :=
  match t.opened with
  | some name => (s.put i t).truncate i (inode name)
  | none => s.put i t

/-- A step of a worker, or of the buffer of its `_output`.  What `_output.close` has still to write
can reach the file while other workers go on. -/
def step : SharedEvent → Option (Shared α)
  | .worker i e => ((s.sessions i).step sv e).map fun t ↦
    if (s.sessions i).pc = .name ∧ t.pc = .data then s.openOutput inode i t else s.put i t
  | .flush i n =>
    match s.file inode i with
    | some f =>
      if 0 < n ∧ s.flushed i + n ≤ (s.sessions i).written.length then some (s.flush i n f) else none
    | none => none

/-- The steps, one by one. -/
inductive Moves : SharedEvent → Shared α → Prop
  | receive (i : ℕ) (e : Event) (t : Session) (h : Session.Moves sv (s.sessions i) e t)
      (hpc : (s.sessions i).pc = .name → t.pc = .data → t.opened = none) :
      Moves (.worker i e) (s.put i t)
  | opens (i : ℕ) (e : Event) (t : Session) (name : List UInt8)
      (h : Session.Moves sv (s.sessions i) e t) (hpc : (s.sessions i).pc = .name ∧ t.pc = .data)
      (hname : t.opened = some name) :
      Moves (.worker i e) ((s.put i t).truncate i (inode name))
  | flush (i n : ℕ) (f : α) (hf : s.file inode i = some f) (hpos : 0 < n)
      (hle : s.flushed i + n ≤ (s.sessions i).written.length) :
      Moves (.flush i n) (s.flush i n f)

end

variable {α : Type} {inode : List UInt8 → α} {sv : Server} {s t : Shared α} {e : SharedEvent}

/-! ### What a step leaves alone -/

@[simp] theorem put_sessions_self (i : ℕ) (w : Session) : (s.put i w).sessions i = w :=
  Function.update_self ..

theorem put_sessions_ne {i j : ℕ} (w : Session) (h : j ≠ i) :
    (s.put i w).sessions j = s.sessions j :=
  Function.update_of_ne h ..

theorem file_put_ne {i j : ℕ} (w : Session) (h : j ≠ i) :
    (s.put i w).file inode j = s.file inode j := by
  rw [file, file, put_sessions_ne w h]

theorem file_put_of_same {i : ℕ} {w : Session} (h : w.opened = (s.sessions i).opened) (j : ℕ) :
    (s.put i w).file inode j = s.file inode j := by
  by_cases hj : j = i
  · rw [hj, file, file, put_sessions_self, h]
  · exact file_put_ne w hj

theorem file_put_of_name {i : ℕ} {w : Session} {name : List UInt8} (h : w.opened = some name) :
    (s.put i w).file inode i = some (inode name) := by
  rw [file, put_sessions_self, h, Option.map_some]

theorem length_unflushed {i n : ℕ} (hle : s.flushed i + n ≤ (s.sessions i).written.length) :
    (s.unflushed i n).length = n := by
  rw [unflushed, List.length_take, List.length_drop]
  omega

section

variable [DecidableEq α]

@[simp] theorem file_truncate (i : ℕ) (f : α) (j : ℕ) :
    (s.truncate i f).file inode j = s.file inode j := rfl

theorem files_truncate_self (i : ℕ) (f : α) : (s.truncate i f).files f = [] :=
  Function.update_self ..

theorem files_truncate_ne {f g : α} (i : ℕ) (h : g ≠ f) : (s.truncate i f).files g = s.files g :=
  Function.update_of_ne h ..

theorem opener_truncate_self (i : ℕ) (f : α) : (s.truncate i f).opener f = some i :=
  Function.update_self ..

theorem opener_truncate_ne {f g : α} (i : ℕ) (h : g ≠ f) :
    (s.truncate i f).opener g = s.opener g :=
  Function.update_of_ne h ..

theorem flushed_flush_self (i n : ℕ) (f : α) : (s.flush i n f).flushed i = s.flushed i + n :=
  Function.update_self ..

theorem flushed_flush_ne {i j : ℕ} (n : ℕ) (f : α) (h : j ≠ i) :
    (s.flush i n f).flushed j = s.flushed j :=
  Function.update_of_ne h ..

theorem files_flush_self (i n : ℕ) (f : α) :
    (s.flush i n f).files f = writeAt 0 (s.files f) (s.flushed i) (s.unflushed i n) :=
  Function.update_self ..

theorem files_flush_ne {f g : α} (i n : ℕ) (h : g ≠ f) : (s.flush i n f).files g = s.files g :=
  Function.update_of_ne h ..

/-- **What one step can do.** -/
theorem step_eq_some_iff : s.step sv inode e = some t ↔ s.Moves sv inode e t := by
  constructor
  · intro h
    cases e with
    | worker i e =>
      obtain ⟨w, hw, rfl⟩ := Option.map_eq_some_iff.mp h
      have hmoves := Session.step_eq_some_iff.mp hw
      split_ifs with hpc
      · cases hname : w.opened with
        | none =>
          rw [openOutput, hname]
          exact .receive i e w hmoves fun _ _ ↦ hname
        | some name =>
          rw [openOutput, hname]
          exact .opens i e w name hmoves hpc hname
      · exact .receive i e w hmoves fun h h' ↦ absurd ⟨h, h'⟩ hpc
    | flush i n =>
      simp only [step] at h
      split at h
      case h_1 f hf =>
        split at h
        case isTrue hn => exact Option.some.inj h ▸ .flush i n f hf hn.1 hn.2
        case isFalse => cases h
      case h_2 => cases h
  · intro h
    cases h with
    | receive i e w h hpc =>
      rw [step, Session.step_eq_some_iff.mpr h, Option.map_some]
      split_ifs with hboth
      · rw [openOutput, hpc hboth.1 hboth.2]
      · rfl
    | opens i e w name h hpc hname =>
      rw [step, Session.step_eq_some_iff.mpr h, Option.map_some, if_pos hpc, openOutput, hname]
    | flush i n f hf hpos hle => simp [step, hf, hpos, hle]

end

/-! ### What holds in every interleaving -/

/-- The invariant of all runs. -/
structure Inv (inode : List UInt8 → α) (s : Shared α) : Prop where
  quiet : ∀ i, (s.sessions i).Quiet
  /-- Only what was written reaches a file. -/
  flushed_le : ∀ i, s.flushed i ≤ (s.sessions i).written.length
  /-- The last opener of a file has opened it. -/
  opener : ∀ f i, s.opener f = some i → s.file inode i = some f
  /-- A file that a worker has opened has a last opener. -/
  covered : ∀ f i, s.file inode i = some f → ∃ j, s.opener f = some j
  /-- What the last opener has written to the file has not been cut off. -/
  grown : ∀ f i, s.opener f = some i → s.flushed i ≤ (s.files f).length

theorem start_inv (inode : List UInt8 → α) (files : α → List UInt8) : (start files).Inv inode := by
  refine ⟨fun _ ↦ Session.start_quiet, fun _ ↦ Nat.le_refl _, fun f i h ↦ ?_, fun f i h ↦ ?_,
    fun f i h ↦ ?_⟩ <;> cases h

/-- No worker has opened a file before its second `recv`. -/
theorem Inv.file_eq_none (hs : s.Inv inode) {i : ℕ} (hpc : (s.sessions i).pc = .name) :
    s.file inode i = none := by
  rw [file, (hs.quiet i).unopened (.inr (.inr hpc)), Option.map_none]

/-- Nothing of such a worker has reached a file. -/
theorem Inv.flushed_eq_zero (hs : s.Inv inode) {i : ℕ} (hpc : (s.sessions i).pc = .name) :
    s.flushed i = 0 := by
  have hwritten := (hs.quiet i).unwritten ((hs.quiet i).unopened (.inr (.inr hpc)))
  have hle := hs.flushed_le i
  rw [hwritten] at hle
  exact Nat.le_zero.mp hle

theorem Inv.quiet_put (hs : s.Inv inode) {i : ℕ} {w : Session} (hw : w.Quiet) (j : ℕ) :
    ((s.put i w).sessions j).Quiet := by
  by_cases hj : j = i
  · rw [hj, put_sessions_self]
    exact hw
  · rw [put_sessions_ne w hj]
    exact hs.quiet j

/-- A worker goes on with the file it has opened, if it has opened one. -/
theorem Inv.receive (hs : s.Inv inode) {i : ℕ} {w : Session} (hw : w.Quiet)
    (hopened : w.opened = (s.sessions i).opened) (hpre : (s.sessions i).written <+: w.written) :
    (s.put i w).Inv inode := by
  have hfile : ∀ j, (s.put i w).file inode j = s.file inode j := file_put_of_same hopened
  refine ⟨hs.quiet_put hw, fun j ↦ ?_, fun f j h ↦ ?_, fun f j h ↦ ?_, hs.grown⟩
  · have hle := hs.flushed_le j
    by_cases hj : j = i
    · rw [hj] at hle
      rw [hj, put_sessions_self]
      exact hle.trans hpre.length_le
    · rwa [put_sessions_ne w hj]
  · rw [hfile]
    exact hs.opener f j h
  · rw [hfile] at h
    exact hs.covered f j h

section

variable [DecidableEq α]

/-- A worker empties a file and is its last opener now. -/
theorem Inv.opens (hs : s.Inv inode) {i : ℕ} {w : Session} {name : List UInt8} (hw : w.Quiet)
    (hpc : (s.sessions i).pc = .name) (hname : w.opened = some name) :
    ((s.put i w).truncate i (inode name)).Inv inode := by
  have hnone := hs.file_eq_none hpc
  have hzero := hs.flushed_eq_zero hpc
  refine ⟨hs.quiet_put hw, fun j ↦ ?_, fun f j h ↦ ?_, fun f j h ↦ ?_, fun f j h ↦ ?_⟩
  · by_cases hj : j = i
    · rw [hj]
      exact hzero.le.trans (Nat.zero_le _)
    · rw [truncate, put_sessions_ne w hj]
      exact hs.flushed_le j
  · by_cases hf : f = inode name
    · rw [hf, opener_truncate_self] at h
      rw [← Option.some.inj h, hf]
      exact file_put_of_name hname
    · rw [opener_truncate_ne i hf] at h
      have hfile := hs.opener f j h
      have hj : j ≠ i := fun hj ↦ by simp [hj, hnone] at hfile
      rwa [file_truncate, file_put_ne w hj]
  · by_cases hf : f = inode name
    · exact ⟨i, hf ▸ opener_truncate_self i _⟩
    · rw [opener_truncate_ne i hf]
      have hj : j ≠ i := by
        rintro rfl
        rw [file_truncate, file_put_of_name hname] at h
        exact hf (Option.some.inj h).symm
      rw [file_truncate, file_put_ne w hj] at h
      exact hs.covered f j h
  · by_cases hf : f = inode name
    · rw [hf, opener_truncate_self] at h
      rw [← Option.some.inj h]
      exact hzero.le.trans (Nat.zero_le _)
    · rw [opener_truncate_ne i hf] at h
      rw [files_truncate_ne i hf]
      exact hs.grown f j h

/-- Some data reaches the file of a worker. -/
theorem Inv.flush (hs : s.Inv inode) {i n : ℕ} {f : α} (hf : s.file inode i = some f)
    (hle : s.flushed i + n ≤ (s.sessions i).written.length) : (s.flush i n f).Inv inode := by
  have hlen : ((s.flush i n f).files f).length = max (s.files f).length (s.flushed i + n) := by
    rw [files_flush_self, length_writeAt, length_unflushed hle]
  refine ⟨hs.quiet, fun j ↦ ?_, hs.opener, hs.covered, fun g j h ↦ ?_⟩
  · by_cases hj : j = i
    · rwa [hj, flushed_flush_self]
    · rw [flushed_flush_ne n f hj]
      exact hs.flushed_le j
  · have hgrown := hs.grown g j h
    by_cases hg : g = f
    · rw [hg] at hgrown ⊢
      by_cases hj : j = i
      · rw [hj, flushed_flush_self, hlen]
        exact le_max_right _ _
      · rw [flushed_flush_ne n f hj, hlen]
        exact hgrown.trans (le_max_left _ _)
    · have hj : j ≠ i := by
        rintro rfl
        exact hg (Option.some.inj ((hs.opener g j h).symm.trans hf))
      rwa [flushed_flush_ne n f hj, files_flush_ne i n hg]

/-- **Every step keeps the invariant.** -/
theorem Inv.step (hs : s.Inv inode) (h : s.Moves sv inode e t) : t.Inv inode := by
  rcases h with ⟨i, e, w, h, hpc⟩ | ⟨i, e, w, name, h, hpc, hname⟩ | ⟨i, n, f, hf, -, hle⟩
  · obtain ⟨hopened, hpre⟩ := (hs.quiet i).receive h hpc
    exact hs.receive ((hs.quiet i).step h) hopened hpre
  · exact hs.opens ((hs.quiet i).step h) hpc.1 hname
  · exact hs.flush hf hle

end

/-! ### Files that are what their last opener has sent -/

/-- A file is what has reached it of the data of its last opener. -/
def Whole (s : Shared α) : Prop :=
  ∀ f i, s.opener f = some i → s.files f = (s.sessions i).written.take (s.flushed i)

/-- What reaches a file comes from its last opener, or the file holds it already. -/
def Keeps (inode : List UInt8 → α) (s : Shared α) : SharedEvent → Prop
  | .worker _ _ => True
  | .flush i n => ∀ f, s.file inode i = some f →
    s.opener f = some i ∨ ((s.files f).drop (s.flushed i)).take n = s.unflushed i n

theorem start_whole (files : α → List UInt8) : (start files).Whole := by
  intro f i h
  cases h

theorem Whole.receive (hs : s.Inv inode) (hw : s.Whole) {i : ℕ} {w : Session}
    (hpre : (s.sessions i).written <+: w.written) : (s.put i w).Whole := by
  intro f j h
  have hfile := hw f j h
  by_cases hj : j = i
  · obtain ⟨l, hl⟩ := hpre
    have hle := hs.flushed_le j
    rw [hj] at hfile hle ⊢
    rw [put_sessions_self, ← hl]
    exact hfile.trans (List.take_append_of_le_length hle).symm
  · rwa [put_sessions_ne w hj]

section

variable [DecidableEq α]

theorem Whole.opens (hs : s.Inv inode) (hw : s.Whole) {i : ℕ} (w : Session) (name : List UInt8)
    (hpc : (s.sessions i).pc = .name) : ((s.put i w).truncate i (inode name)).Whole := by
  intro f j h
  by_cases hf : f = inode name
  · rw [hf, opener_truncate_self] at h
    have hzero : s.flushed j = 0 := Option.some.inj h ▸ hs.flushed_eq_zero hpc
    rw [hf, files_truncate_self]
    exact (congrArg (List.take · _) hzero).symm
  · rw [opener_truncate_ne i hf] at h
    have hj : j ≠ i := by
      rintro rfl
      have hfile := hs.opener f j h
      rw [hs.file_eq_none hpc] at hfile
      cases hfile
    rw [files_truncate_ne i hf, truncate, put_sessions_ne w hj]
    exact hw f j h

/-- Data of the last opener reaches a file. -/
theorem files_flush_of_opener (hs : s.Inv inode) (hw : s.Whole) {i : ℕ} (n : ℕ) {f : α}
    (hopener : s.opener f = some i) :
    (s.flush i n f).files f = (s.sessions i).written.take (s.flushed i + n) := by
  have hfile := hw f i hopener
  have hlen : (s.files f).length = s.flushed i := by
    rw [hfile, List.length_take]
    exact Nat.min_eq_left (hs.flushed_le i)
  rw [files_flush_self, ← hlen, writeAt_length, hlen, hfile, unflushed, ← List.take_add]

/-- **What reaches a file leaves it whole exactly if it comes from the last opener, or the file
holds it already.** -/
theorem whole_flush_iff (hs : s.Inv inode) (hw : s.Whole) {i n : ℕ} {f : α}
    (hf : s.file inode i = some f) (hpos : 0 < n)
    (hle : s.flushed i + n ≤ (s.sessions i).written.length) :
    (s.flush i n f).Whole ↔
      s.opener f = some i ∨ ((s.files f).drop (s.flushed i)).take n = s.unflushed i n := by
  have hlen := length_unflushed hle
  have hne : s.unflushed i n ≠ [] := List.length_pos_iff.mp (hlen.ge.trans_lt' hpos)
  constructor
  · intro h
    obtain ⟨j, hj⟩ := hs.covered f i hf
    by_cases hji : j = i
    · exact .inl (hji ▸ hj)
    · have hafter := h f j hj
      rw [flushed_flush_ne n f hji, files_flush_self] at hafter
      have hself := hafter.trans (hw f j hj).symm
      have hslice := (writeAt_eq_self_iff hne).mp hself
      rw [hlen] at hslice
      exact .inr hslice
  · intro h g j hj
    have hfile := hw g j hj
    by_cases hg : g = f
    · rw [hg] at hj hfile ⊢
      by_cases hji : j = i
      · rw [hji] at hj ⊢
        rw [flushed_flush_self, files_flush_of_opener hs hw n hj]
        rfl
      · have hslice := h.resolve_left fun hi ↦ hji (Option.some.inj (hj.symm.trans hi))
        have hself : writeAt 0 (s.files f) (s.flushed i) (s.unflushed i n) = s.files f :=
          (writeAt_eq_self_iff hne).mpr (by rwa [hlen])
        rw [flushed_flush_ne n f hji, files_flush_self, hself]
        exact hfile
    · have hji : j ≠ i := by
        rintro rfl
        exact hg (Option.some.inj ((hs.opener g j hj).symm.trans hf))
      rw [flushed_flush_ne n f hji, files_flush_ne i n hg]
      exact hfile

theorem whole_step_iff (hs : s.Inv inode) (hw : s.Whole) (h : s.Moves sv inode e t) :
    t.Whole ↔ s.Keeps inode e := by
  rcases h with ⟨i, e, w, h, hpc⟩ | ⟨i, e, w, name, h, hpc, hname⟩ | ⟨i, n, f, hf, hpos, hle⟩
  · exact iff_of_true (hw.receive hs ((hs.quiet i).receive h hpc).2) trivial
  · exact iff_of_true (hw.opens hs w name hpc.1) trivial
  · rw [whole_flush_iff hs hw hf hpos hle, Keeps]
    constructor
    · rintro h g hg
      exact Option.some.inj (hf.symm.trans hg) ▸ h
    · intro h
      exact h f hf

/-- **Every file is what its last opener has sent so far, in exactly the runs in which nothing else
reaches a file that it does not hold already.** -/
theorem always_whole_iff (sv : Server) (inode : List UInt8 → α) (files : α → List UInt8)
    (es : List SharedEvent) :
    Run.Always (step sv inode) Whole (start files) es ↔
      Run.Meets (step sv inode) (Keeps inode) (start files) es :=
  Run.Always.iff_meets (J := Inv inode) (P := Whole)
    (fun _ _ _ hs hw h ↦ whole_step_iff hs hw (step_eq_some_iff.mp h))
    (Run.always_of_invariant (fun _ _ _ hs h ↦ hs.step (step_eq_some_iff.mp h))
      (start_inv inode files) es)
    (start_whole files)

/-- A worker opens a file under the name `a`. -/
def opening (i : ℕ) : List SharedEvent :=
  [.worker i (.recv (some (decimal 2)) []), .worker i (.answer true),
    .worker i (.recv (some [97]) [])]

/-- One byte of the first upload reaches the file after the second one has opened it. -/
example : (Run.exec (step ⟨4, fun _ ↦ true⟩ id) (start fun _ ↦ [])
    (opening 0 ++ [.worker 0 (.recv (some [1, 2]) []), .flush 0 1] ++
      opening 1 ++ [.worker 1 (.recv (some [3]) []), .flush 1 1, .flush 0 1])).map
        (fun s ↦ s.files [97]) = some [3, 2] := by
  decide

end

/-! ### Uploads that take turns -/

/-- All that a worker has written to its file has reached it, and it writes no more. -/
def Finished (s : Shared α) (i : ℕ) : Prop :=
  (s.sessions i).pc = .done ∧ s.flushed i = (s.sessions i).written.length

/-- A file is opened only when the workers that have opened it before are finished. -/
def TakesTurn (sv : Server) (inode : List UInt8 → α) (s : Shared α) : SharedEvent → Prop
  | .worker i e => ∀ t name, (s.sessions i).step sv e = some t → (s.sessions i).pc = .name →
    t.pc = .data → t.opened = some name → ∀ j, s.file inode j = some (inode name) → s.Finished j
  | .flush _ _ => True

/-- The invariant of the runs in which uploads take turns. -/
structure TurnsInv (inode : List UInt8 → α) (s : Shared α) : Prop where
  inv : s.Inv inode
  whole : s.Whole
  /-- Only the last opener of a file has something left to write to it. -/
  turns : ∀ f i, s.file inode i = some f → s.opener f = some i ∨ s.Finished i

theorem start_turnsInv (inode : List UInt8 → α) (files : α → List UInt8) :
    (start files).TurnsInv inode := by
  refine ⟨start_inv inode files, start_whole files, fun f i h ↦ ?_⟩
  cases h

/-- A worker that is done takes no step. -/
theorem ne_of_finished {i j : ℕ} {e : Event} {w : Session}
    (h : Session.Moves sv (s.sessions i) e w) (hj : s.Finished j) : j ≠ i := by
  rintro rfl
  have hdone := hj.1
  cases h with
  | size hpc | answer hpc | name hpc | data hpc | eof hpc => simp [hdone] at hpc
  | fail hpc => simp [hdone] at hpc

theorem Finished.put {i j : ℕ} {w : Session} (hj : s.Finished j) (hne : j ≠ i) :
    (s.put i w).Finished j := by
  rw [Finished, put_sessions_ne w hne]
  exact hj

section

variable [DecidableEq α]

theorem TurnsInv.keeps (hs : s.TurnsInv inode) (h : s.Moves sv inode e t) : s.Keeps inode e := by
  rcases h with ⟨i, e, w, -, -⟩ | ⟨i, e, w, name, -, -, -⟩ | ⟨i, n, f, hf, hpos, hle⟩
  · trivial
  · trivial
  · intro g hg
    refine .inl ((hs.turns g i hg).resolve_right fun hfin ↦ ?_)
    have hall := hfin.2
    omega

theorem TurnsInv.step (hs : s.TurnsInv inode) (hok : s.TakesTurn sv inode e)
    (h : s.Moves sv inode e t) : t.TurnsInv inode := by
  refine ⟨hs.inv.step h, (whole_step_iff hs.inv hs.whole h).mpr (hs.keeps h), fun f j hj ↦ ?_⟩
  rcases h with ⟨i, e, w, h, hpc⟩ | ⟨i, e, w, name, h, hpc, hname⟩ | ⟨i, n, g, hg, hpos, hle⟩
  · obtain ⟨hopened, -⟩ := (hs.inv.quiet i).receive h hpc
    rw [file_put_of_same hopened] at hj
    exact (hs.turns f j hj).imp_right fun hfin ↦ hfin.put (ne_of_finished h hfin)
  · by_cases hji : j = i
    · rw [hji, file_truncate, file_put_of_name hname] at hj
      rw [hji, ← Option.some.inj hj]
      exact .inl (opener_truncate_self i _)
    · rw [file_truncate, file_put_ne w hji] at hj
      by_cases hf : f = inode name
      · have hfin := hok w name (Session.step_eq_some_iff.mpr h) hpc.1 hpc.2 hname j (hf ▸ hj)
        exact .inr (hfin.put hji)
      · rw [opener_truncate_ne i hf]
        exact (hs.turns f j hj).imp_right fun hfin ↦ hfin.put hji
  · refine (hs.turns f j hj).imp_right fun hfin ↦ ⟨hfin.1, ?_⟩
    have hji : j ≠ i := by
      rintro rfl
      have hall := hfin.2
      omega
    rw [flushed_flush_ne n g hji]
    exact hfin.2

/-- **Uploads that take turns leave the last one.**  When a file is opened only after the earlier
uploads to it are finished, it is in the end what its last opener has sent. -/
theorem files_eq_of_takesTurn {files : α → List UInt8} {es : List SharedEvent}
    (hturn : Run.Meets (step sv inode) (TakesTurn sv inode) (start files) es)
    (h : Run.exec (step sv inode) (start files) es = some s) {f : α} {i : ℕ}
    (hi : s.opener f = some i) (hfin : s.Finished i) : s.files f = (s.sessions i).written := by
  have hs : s.TurnsInv inode := Run.meets_induction (I := TurnsInv inode)
    (fun _ _ _ hs hok h ↦ hs.step hok (step_eq_some_iff.mp h))
    (start_turnsInv inode files) hturn h
  rw [hs.whole f i hi, hfin.2, List.take_length]

/-- A worker goes on, and the others are where they were. -/
theorem Moves.others {j : ℕ} (h : s.Moves sv inode e t) (hj : j ≠ e.who) :
    t.file inode j = s.file inode j ∧ (s.Finished j → t.Finished j) := by
  rcases h with ⟨i, e, w, -, -⟩ | ⟨i, e, w, name, -, -, -⟩ | ⟨i, n, f, -, -, -⟩
  · exact ⟨file_put_ne w hj, fun hfin ↦ hfin.put hj⟩
  · exact ⟨(file_truncate ..).trans (file_put_ne w hj), fun hfin ↦ hfin.put hj⟩
  · exact ⟨rfl, fun hfin ↦ ⟨hfin.1, (flushed_flush_ne n f hj).trans hfin.2⟩⟩

/-- The other workers have opened nothing, or are finished. -/
def Leaves (inode : List UInt8 → α) (i : ℕ) (s : Shared α) : Prop :=
  ∀ j, j ≠ i → s.file inode j = none ∨ s.Finished j

theorem Leaves.step {i : ℕ} (hs : s.Leaves inode i) (he : e.who = i) (h : s.Moves sv inode e t) :
    t.Leaves inode i := by
  intro j hj
  obtain ⟨hfile, hfin⟩ := h.others (he ▸ hj)
  exact (hs j hj).imp hfile.trans hfin

/-- A worker takes turns with those that are finished. -/
theorem meets_takesTurn {i : ℕ} {es : List SharedEvent} (hs : s.Inv inode)
    (hleaves : s.Leaves inode i) (hes : ∀ e ∈ es, e.who = i) :
    Run.Meets (step sv inode) (TakesTurn sv inode) s es := by
  induction es generalizing s with
  | nil => trivial
  | cons e es ih =>
    obtain ⟨he, hes⟩ := List.forall_mem_cons.mp hes
    intro t ht
    have hmoves := step_eq_some_iff.mp ht
    refine ⟨?_, ih (hs.step hmoves) (hleaves.step he hmoves) hes⟩
    match e with
    | .flush _ _ => trivial
    | .worker k r =>
      obtain rfl : k = i := he
      rintro w name - hpc - - j hj
      by_cases hjk : j = k
      · rw [hjk, hs.file_eq_none hpc] at hj
        cases hj
      · refine (hleaves j hjk).resolve_left fun hnone ↦ ?_
        rw [hnone] at hj
        cases hj

/-- A whole upload of two bytes. -/
def upload (i : ℕ) (data : List UInt8) : List SharedEvent :=
  opening i ++ [.worker i (.recv (some data) []), .worker i (.recv (some []) []), .flush i 2]

theorem who_upload {i : ℕ} {data : List UInt8} : ∀ e ∈ upload i data, e.who = i := by
  simp [upload, opening, SharedEvent.who]

/-- Two workers upload to one file, the second one when the first one is finished. -/
theorem files_eq_of_takesTurn_sample : ∃ s : Shared (List UInt8),
    Run.exec (step ⟨4, fun _ ↦ true⟩ id) (start fun _ ↦ []) (upload 0 [1, 2] ++ upload 1 [3, 4]) =
      some s ∧ s.files [97] = [3, 4] := by
  obtain ⟨s₁, hs₁, h₁⟩ : ∃ s₁, Run.exec (step ⟨4, fun _ ↦ true⟩ id) (start fun _ ↦ [])
      (upload 0 [1, 2]) = some s₁ ∧
        (s₁.sessions 0, s₁.flushed 0) = (⟨.done, 2, [97], some [97], [1, 2]⟩, 2) := by
    rw [← Option.map_eq_some_iff]
    decide
  obtain ⟨s, hs, hobs⟩ : ∃ s, Run.exec (step ⟨4, fun _ ↦ true⟩ id) (start fun _ ↦ [])
      (upload 0 [1, 2] ++ upload 1 [3, 4]) = some s ∧
        (s.opener [97], s.sessions 1, s.flushed 1) =
          (some 1, ⟨.done, 2, [97], some [97], [3, 4]⟩, 2) := by
    rw [← Option.map_eq_some_iff]
    decide
  simp only [Prod.mk.injEq] at h₁ hobs
  obtain ⟨hopener, hsession, hflushed⟩ := hobs
  -- the second worker starts when the first one is finished, and there is no other
  have hinv₁ : s₁.Inv id :=
    Run.exec_induction (fun _ _ _ hs h ↦ hs.step (step_eq_some_iff.mp h)) (start_inv id _) hs₁
  have hleaves₁ : s₁.Leaves id 0 := by
    refine Run.meets_induction (I := Leaves id 0) (fun _ _ _ hs he h ↦ ?_) (fun _ _ ↦ .inl rfl)
      (Run.meets_of_forall who_upload) hs₁
    exact hs.step he (step_eq_some_iff.mp h)
  have hleaves : s₁.Leaves id 1 := by
    intro j hj
    by_cases hj0 : j = 0
    · exact .inr (by simp [hj0, Finished, h₁])
    · exact hleaves₁ j hj0
  have hturn : Run.Meets (step ⟨4, fun _ ↦ true⟩ id) (TakesTurn ⟨4, fun _ ↦ true⟩ id)
      (start fun _ ↦ []) (upload 0 [1, 2] ++ upload 1 [3, 4]) :=
    Run.meets_append hs₁ (meets_takesTurn (start_inv id _) (fun _ _ ↦ .inl rfl) who_upload)
      (meets_takesTurn hinv₁ hleaves who_upload)
  have hfiles := files_eq_of_takesTurn hturn hs hopener (by simp [Finished, hsession, hflushed])
  exact ⟨s, hs, hfiles.trans (congrArg Session.written hsession)⟩

end

/-! ### What a file can hold -/

/-- Where a byte of a file comes from: it was sent at this position by a worker that has opened the
file, or it is in the gap that an opener has left in front of another one's data. -/
def Explained (inode : List UInt8 → α) (s : Shared α) (f : α) (p : ℕ) (b : UInt8) : Prop :=
  (∃ i, s.file inode i = some f ∧ p < s.flushed i ∧ (s.sessions i).written[p]? = some b) ∨
    b = 0 ∧ ∃ i j, i ≠ j ∧ s.file inode i = some f ∧ s.file inode j = some f ∧ p < s.flushed i

/-- Every byte of a file that was opened comes from there. -/
def Mixed (inode : List UInt8 → α) (s : Shared α) : Prop :=
  ∀ f, s.opener f ≠ none → ∀ p b, (s.files f)[p]? = some b → s.Explained inode f p b

/-- What a byte comes from is not lost when the openers of the file only go on. -/
theorem Explained.mono {f : α} {p : ℕ} {b : UInt8} (hb : s.Explained inode f p b)
    (h : ∀ i, s.file inode i = some f → t.file inode i = some f ∧ s.flushed i ≤ t.flushed i ∧
      (s.sessions i).written <+: (t.sessions i).written) :
    t.Explained inode f p b := by
  rcases hb with ⟨i, hi, hp, hwritten⟩ | ⟨hzero, i, j, hij, hi, hj, hp⟩
  · obtain ⟨hfile, hle, l, hl⟩ := h i hi
    refine .inl ⟨i, hfile, hp.trans_le hle, ?_⟩
    rw [← hl, List.getElem?_append_left (List.getElem?_eq_some_iff.mp hwritten).1, hwritten]
  · obtain ⟨hfile, hle, -⟩ := h i hi
    exact .inr ⟨hzero, i, j, hij, hfile, (h j hj).1, hp.trans_le hle⟩

theorem start_mixed (inode : List UInt8 → α) (files : α → List UInt8) :
    (start files).Mixed inode := fun _ h ↦ absurd rfl h

/-- A file is not larger than what one of its openers has sent. -/
theorem Mixed.length_le (hs : s.Inv inode) (hm : s.Mixed inode) {k : ℕ}
    (hk : ∀ i, (s.sessions i).written.length ≤ k) {f : α} (hf : s.opener f ≠ none) :
    (s.files f).length ≤ k := by
  by_contra hlt
  have hcell : (s.files f)[k]? = some (s.files f)[k] := List.getElem?_eq_getElem _
  obtain ⟨i, hi⟩ : ∃ i, k < s.flushed i := by
    rcases hm f hf k _ hcell with ⟨i, -, hp, -⟩ | ⟨-, i, j, -, -, -, hp⟩
    · exact ⟨i, hp⟩
    · exact ⟨i, hp⟩
  exact absurd ((hs.flushed_le i).trans (hk i)) (Nat.not_le.mpr hi)

section

variable [DecidableEq α]

/-- A byte that has just reached a file, or is in the gap in front of what has. -/
theorem explained_flush (hs : s.Inv inode) {i n : ℕ} {f : α} (hf : s.file inode i = some f)
    (hle : s.flushed i + n ≤ (s.sessions i).written.length) {p : ℕ} {b : UInt8}
    (hb : ((s.flush i n f).files f)[p]? = some b) :
    (s.flush i n f).Explained inode f p b ∨ (s.files f)[p]? = some b := by
  have hlen := length_unflushed hle
  rw [files_flush_self, getElem?_writeAt, hlen] at hb
  split_ifs at hb with hin hgap
  · refine .inl (.inl ⟨i, hf, by rw [flushed_flush_self]; exact hin.2, ?_⟩)
    have hoff : p - s.flushed i < n := by omega
    rw [unflushed, List.getElem?_take_of_lt hoff, List.getElem?_drop,
      Nat.add_sub_cancel' hin.1] at hb
    exact hb
  · obtain ⟨j, hj⟩ := hs.covered f i hf
    have hij : i ≠ j := by
      rintro rfl
      exact absurd (hs.grown f i hj) (Nat.not_le.mpr (hgap.2.trans_lt hgap.1))
    refine .inl (.inr ⟨(Option.some.inj hb).symm, i, j, hij, hf, hs.opener f j hj, ?_⟩)
    rw [flushed_flush_self]
    exact hgap.1.trans_le (Nat.le_add_right _ _)
  · exact .inr hb

/-- **Every step keeps the bytes of the files explained.** -/
theorem Mixed.step (hs : s.Inv inode) (hm : s.Mixed inode) (h : s.Moves sv inode e t) :
    t.Mixed inode := by
  rcases h with ⟨i, e, w, h, hpc⟩ | ⟨i, e, w, name, h, hpc, hname⟩ | ⟨i, n, f, hf, -, hle⟩
  · obtain ⟨hopened, hpre⟩ := (hs.quiet i).receive h hpc
    intro f hopener p b hb
    refine (hm f hopener p b hb).mono fun j hj ↦ ⟨?_, Nat.le_refl _, ?_⟩
    · rwa [file_put_of_same hopened]
    · by_cases hji : j = i
      · rwa [hji, put_sessions_self]
      · exact (put_sessions_ne (s := s) w hji) ▸ List.prefix_rfl
  · have hnone := hs.file_eq_none hpc.1
    intro f hopener p b hb
    by_cases hf : f = inode name
    · rw [hf, files_truncate_self] at hb
      cases hb
    · rw [files_truncate_ne i hf] at hb
      rw [opener_truncate_ne i hf] at hopener
      refine (hm f hopener p b hb).mono fun j hj ↦ ?_
      have hji : j ≠ i := by
        rintro rfl
        rw [hnone] at hj
        cases hj
      refine ⟨by rwa [file_truncate, file_put_ne w hji], Nat.le_refl _, ?_⟩
      exact (put_sessions_ne (s := s) w hji) ▸ List.prefix_rfl
  · intro g hopener p b hb
    have hmono : ∀ b', s.Explained inode g p b' → (s.flush i n f).Explained inode g p b' := by
      refine fun b' hb' ↦ hb'.mono fun j hj ↦ ⟨hj, ?_, List.prefix_rfl⟩
      by_cases hji : j = i
      · rw [hji, flushed_flush_self]
        exact Nat.le_add_right _ _
      · rw [flushed_flush_ne n f hji]
    by_cases hg : g = f
    · rw [hg] at hb hopener hmono ⊢
      exact (explained_flush hs hf hle hb).elim id fun hold ↦ hmono b (hm f hopener p b hold)
    · rw [files_flush_ne i n hg] at hb
      exact hmono b (hm g hopener p b hb)

/-- **In every interleaving, a file holds data of its openers**, each byte where it was sent, and
zeros in the gaps that one opener has left in front of another one's data. -/
theorem always_mixed (sv : Server) (inode : List UInt8 → α) (files : α → List UInt8)
    (es : List SharedEvent) : Run.Always (step sv inode) (Mixed inode) (start files) es := by
  have hall : Run.Always (step sv inode) (fun s ↦ s.Inv inode ∧ s.Mixed inode) (start files) es :=
    Run.always_of_invariant
      (fun _ _ _ hs h ↦
        ⟨hs.1.step (step_eq_some_iff.mp h), hs.2.step hs.1 (step_eq_some_iff.mp h)⟩)
      ⟨start_inv inode files, start_mixed inode files⟩ es
  exact hall.imp fun _ hs ↦ hs.2

end

/-! ### The limit of all connections and files -/

/-- The server keeps to its limit. -/
structure Within (sv : Server) (s : Shared α) : Prop where
  /-- It does so on every connection. -/
  sessions : ∀ i, (s.sessions i).Within sv
  /-- No file it has opened is larger. -/
  files : ∀ f, s.opener f ≠ none → (s.files f).length ≤ sv.maxFileSize

/-- All peers keep to the limit. -/
def Polite (sv : Server) (s : Shared α) : SharedEvent → Prop
  | .worker i e => (s.sessions i).Polite sv e
  | .flush _ _ => True

/-- The invariant of the runs in which all peers keep to the limit. -/
structure PoliteInv (sv : Server) (inode : List UInt8 → α) (s : Shared α) : Prop where
  inv : s.Inv inode
  mixed : s.Mixed inode
  sessions : ∀ i, (s.sessions i).Inv sv

theorem PoliteInv.within (hs : s.PoliteInv sv inode) : s.Within sv :=
  ⟨fun i ↦ (hs.sessions i).toWithin,
    fun _ hf ↦ hs.mixed.length_le hs.inv (fun i ↦ (hs.sessions i).bounded) hf⟩

variable [DecidableEq α]

theorem PoliteInv.step (hs : s.PoliteInv sv inode) (hok : s.Polite sv e)
    (h : s.Moves sv inode e t) : t.PoliteInv sv inode := by
  refine ⟨hs.inv.step h, hs.mixed.step hs.inv h, fun j ↦ ?_⟩
  have hput : ∀ {i : ℕ} {e : Event} {w : Session}, Session.Moves sv (s.sessions i) e w →
      (s.sessions i).Polite sv e → ((s.put i w).sessions j).Inv sv := by
    intro i e w hmoves hpolite
    by_cases hj : j = i
    · rw [hj, put_sessions_self]
      exact (hs.sessions i).step hpolite hmoves
    · rw [put_sessions_ne w hj]
      exact hs.sessions j
  rcases h with ⟨i, e, w, h, -⟩ | ⟨i, e, w, name, h, -, -⟩ | ⟨i, n, f, -, -, -⟩
  · exact hput h hok
  · exact hput h hok
  · exact hs.sessions j

/-- A step of a peer that does not keep to the limit breaks it. -/
theorem PoliteInv.polite (hs : s.PoliteInv sv inode) (h : s.Moves sv inode e t)
    (ht : t.Within sv) : s.Polite sv e := by
  rcases h with ⟨i, e, w, h, -⟩ | ⟨i, e, w, name, h, -, -⟩ | ⟨i, n, f, -, -, -⟩
  · have hw : w.Within sv := put_sessions_self (s := s) i w ▸ ht.sessions i
    exact (hs.sessions i).polite h hw
  · have hw : w.Within sv := put_sessions_self (s := s) i w ▸ ht.sessions i
    exact (hs.sessions i).polite h hw
  · trivial

/-- **The server keeps to its limit, of all connections and all files, in exactly the runs in which
all peers do.** -/
theorem all_within_iff (sv : Server) (inode : List UInt8 → α) (files : α → List UInt8)
    (es : List SharedEvent) :
    Run.Always (step sv inode) (Within sv) (start files) es ↔
      Run.Meets (step sv inode) (Polite sv) (start files) es :=
  Run.always_iff_meets (I := PoliteInv sv inode)
    (fun _ _ _ hs hok h ↦ hs.step hok (step_eq_some_iff.mp h)) (fun _ hs ↦ hs.within)
    (fun _ _ _ hs h ht ↦ hs.polite (step_eq_some_iff.mp h) ht)
    ⟨start_inv inode files, start_mixed inode files, fun _ ↦ Session.start_inv sv⟩

end Shared

end Ftp
