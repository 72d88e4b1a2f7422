import Mathlib.Data.List.Perm.Subperm
import OsExercises.CachingFs.Defs
import OsExercises.ForMathlib.Run

/-!
# Files and directories that are open

`caching_open` hands a descriptor to the kernel, and `caching_opendir` the address of a `CacheDir`.
`caching_release` closes the descriptor.  `caching_releasedir` does the same with the address, as if
it were one, and deletes the `CacheDir`; the stream of the directory is never closed.

* `Process` has the descriptors and the `CacheDir`s, and `Process.step` is a call of an operation.
* `always_accounted_iff`: the descriptors that are open are those of open files, and those of all
  directories that were ever opened, in exactly the runs in which no address is taken for a
  descriptor that is open.
* `exec_opendir_le`: so directories can be opened only so often.
* `listing_complete_iff`: a directory is listed completely exactly if its stream is at its end and
  the kernel's buffer was never full.
-/

set_option autoImplicit false

namespace CachingFs

open CLib

/-! ## Operations -/

/-- A `CacheDir`, with the stream at `_dir_ptr`. -/
structure CacheDir where
  /-- The descriptor of the stream. -/
  fd : ℕ
  /-- The names in the directory. -/
  names : List Path
  /-- The names `readdir` has not returned yet. -/
  rest : List Path
  /-- The names the kernel has taken. -/
  reported : List Path
  /-- How many names it has refused. -/
  refused : ℕ
  deriving DecidableEq, Repr

/-- The descriptors and the `CacheDir`s. -/
structure Process where
  /-- The descriptors that are open. -/
  fds : List ℕ
  /-- Those in the handles of open files. -/
  files : List ℕ
  /-- The `CacheDir`s, by their addresses. -/
  dirs : ℕ → Option CacheDir
  /-- The descriptors of the streams of all directories that were opened. -/
  streams : List ℕ

/-- `ENOMEM`. -/
def enomem : ℤ := 12

/-- `close`. -/
def close (fds : List ℕ) (fd : ℤ) : Bool × List ℕ :=
  if 0 ≤ fd ∧ fd.toNat ∈ fds then (true, fds.erase fd.toNat) else (false, fds)

/-- `caching_open`, when `open` returns this. -/
def cachingOpen (p : Process) (res : Option ℕ) (errno : ℕ) : ℤ × Process :=
  match res with
  | none => (-errno, p)
  | some fd => (0, { p with fds := fd :: p.fds, files := fd :: p.files })

/-- `caching_flush`, when `dup` returns this. -/
def cachingFlush (p : Process) (dup : Option ℕ) (errno : ℕ) : ℤ × Process :=
  match dup with
  | none => (-errno, p)
  | some fd =>
    let (closed, fds) := close (fd :: p.fds) fd
    (if closed then 0 else -errno, { p with fds := fds })

/-- `caching_release`. -/
def cachingRelease (p : Process) (fh errno : ℕ) : ℤ × Process :=
  let (closed, fds) := close p.fds fh
  (if closed then 0 else -errno, { p with fds := fds, files := p.files.erase fh })

/-- `caching_opendir`, when `new` returns this address, and `opendir` a stream with this descriptor
and these names. -/
def cachingOpendir (p : Process) (address : ℕ) (res : Option (ℕ × List Path)) (errno : ℕ) :
    ℤ × Process :=
  match res with
  | none => (-errno, p)
  | some (fd, names) => (0, { p with
      fds := fd :: p.fds
      dirs := Function.update p.dirs address (some ⟨fd, names, names, [], 0⟩)
      streams := fd :: p.streams })

/-- The loop of `caching_readdir`, from the name on that `readdir` has returned last; `full` tells
for each name whether the buffer is full.  A name that is refused was taken from the stream. -/
def readdirFrom (full : ℕ → Bool) (i : ℕ) (dir : CacheDir) : List Path → ℤ × CacheDir
  | [] => (0, { dir with rest := [] })
  | name :: rest =>
    if full i then (-enomem, { dir with rest := rest, refused := dir.refused + 1 })
    else readdirFrom full (i + 1) { dir with reported := dir.reported ++ [name] } rest

/-- `caching_readdir`. -/
def cachingReaddir (p : Process) (address : ℕ) (full : ℕ → Bool) (errno : ℕ) : ℤ × Process :=
  match p.dirs address with
  | none => (-errno, p)
  | some dir =>
    if dir.rest = [] then (-errno, p)
    else
      let (res, dir) := readdirFrom full 0 dir dir.rest
      (res, { p with dirs := Function.update p.dirs address (some dir) })

/-- `caching_releasedir`, with the address as it is passed to `close`. -/
def releasedirAs (p : Process) (fd : ℤ) (address errno : ℕ) : ℤ × Process :=
  let (closed, fds) := close p.fds fd
  (if closed then 0 else -errno,
    { p with fds := fds, dirs := Function.update p.dirs address none })

/-- `caching_releasedir`.  The address is converted to an `int`. -/
def cachingReleasedir (p : Process) (address errno : ℕ) : ℤ × Process :=
  releasedirAs p (toInt32 address) address errno

/-- A call of an operation, with what the system answers, and `errno`. -/
inductive HandleCall
  | open (res : Option ℕ) (errno : ℕ)
  | flush (fh : ℕ) (dup : Option ℕ) (errno : ℕ)
  | release (fh errno : ℕ)
  | opendir (address : ℕ) (res : Option (ℕ × List Path)) (errno : ℕ)
  | readdir (address : ℕ) (full : ℕ → Bool) (errno : ℕ)
  | releasedir (address errno : ℕ)

/-- The system can answer with this descriptor: there are `limit` of them. -/
def Process.free (limit : ℕ) (p : Process) (fd : ℕ) : Bool := fd < limit ∧ fd ∉ p.fds

/-- The system can answer so, and the kernel uses the handles it was given until it releases them.
A descriptor is duplicated only if it is open. -/
def Process.allows (limit : ℕ) (p : Process) : HandleCall → Bool
  | .open res _ => res.all (p.free limit)
  | .flush fh dup _ => fh ∈ p.files ∧ dup.all fun fd ↦ p.free limit fd ∧ fh ∈ p.fds
  | .release fh _ => fh ∈ p.files
  | .opendir address res _ =>
    (p.dirs address).isNone ∧ res.all fun (fd, _) ↦ p.free limit fd
  | .readdir address _ _ | .releasedir address _ => (p.dirs address).isSome

/-- What an operation returns, and leaves behind. -/
def Process.perform (p : Process) : HandleCall → ℤ × Process
  | .open res errno => cachingOpen p res errno
  | .flush _ dup errno => cachingFlush p dup errno
  | .release fh errno => cachingRelease p fh errno
  | .opendir address res errno => cachingOpendir p address res errno
  | .readdir address full errno => cachingReaddir p address full errno
  | .releasedir address errno => cachingReleasedir p address errno

/-- A call of an operation. -/
def Process.step (limit : ℕ) (p : Process) (e : HandleCall) : Option Process :=
  if p.allows limit e then some (p.perform e).2 else none

/-- The file system when it is mounted, with these descriptors. -/
def Process.start (fds : List ℕ) : Process := ⟨fds, [], fun _ ↦ none, []⟩

/-! ## The descriptors -/

variable {limit : ℕ} {p q : Process} {e : HandleCall} {base : List ℕ} {fd : ℕ}

/-- **The descriptors are accounted for**: those from before, those of open files, and those of all
directories that were opened. -/
def Process.Accounted (base : List ℕ) (p : Process) : Prop :=
  p.fds.Perm (base ++ p.files ++ p.streams)

/-- The address of the `CacheDir` is not taken for a descriptor that is open. -/
def Process.Harmless (p : Process) : HandleCall → Prop
  | .releasedir address _ => ∀ fd ∈ p.fds, (fd : ℤ) ≠ toInt32 address
  | _ => True

theorem close_of_mem {fds : List ℕ} (h : fd ∈ fds) : close fds fd = (true, fds.erase fd) := by
  rw [close, if_pos ⟨Int.natCast_nonneg fd, by simpa using h⟩, Int.toNat_natCast]

theorem close_of_ne {fds : List ℕ} {z : ℤ} (h : ∀ fd ∈ fds, (fd : ℤ) ≠ z) :
    close fds z = (false, fds) := by
  refine if_neg fun ⟨hz, hmem⟩ ↦ h _ hmem ?_
  exact Int.toNat_of_nonneg hz

theorem flush_fds (p : Process) (dup : Option ℕ) (errno : ℕ) :
    (cachingFlush p dup errno).2 = p := by
  cases dup with
  | none => rfl
  | some fd =>
    rw [cachingFlush]
    simp only [close_of_mem (List.mem_cons_self (a := fd) (l := p.fds)), List.erase_cons_head]

/-- What an operation does to the descriptors. -/
inductive Process.Opens (limit : ℕ) (p : Process) : HandleCall → Process → Prop
  | open (fd errno : ℕ) (hfd : p.free limit fd = true) (q : Process)
    (hfds : q.fds = fd :: p.fds) (hfiles : q.files = fd :: p.files)
    (hstreams : q.streams = p.streams) : Opens limit p (.open (some fd) errno) q
  | release (fh errno : ℕ) (hfh : fh ∈ p.files) (q : Process)
    (hfds : q.fds = (close p.fds fh).2) (hfiles : q.files = p.files.erase fh)
    (hstreams : q.streams = p.streams) : Opens limit p (.release fh errno) q
  | opendir (address fd : ℕ) (names : List Path) (errno : ℕ) (hfd : p.free limit fd = true)
    (q : Process) (hfds : q.fds = fd :: p.fds) (hfiles : q.files = p.files)
    (hstreams : q.streams = fd :: p.streams) :
    Opens limit p (.opendir address (some (fd, names)) errno) q
  | releasedir (address errno : ℕ) (q : Process) (hfds : q.fds = (close p.fds (toInt32 address)).2)
    (hfiles : q.files = p.files) (hstreams : q.streams = p.streams) :
    Opens limit p (.releasedir address errno) q
  | same (e : HandleCall) (hopen : ∀ fd errno, e ≠ .open (some fd) errno)
    (hopendir : ∀ address res errno, e ≠ .opendir address (some res) errno)
    (hreleasedir : ∀ address errno, e ≠ .releasedir address errno) (q : Process)
    (hfds : q.fds = p.fds) (hfiles : q.files = p.files) (hstreams : q.streams = p.streams) :
    Opens limit p e q

theorem opens_of_step (h : p.step limit e = some q) : p.Opens limit e q := by
  rw [Process.step] at h
  split at h
  case isFalse => cases h
  case isTrue hok =>
    rw [← Option.some.inj h]
    cases e with
    | «open» res errno =>
      cases res with
      | none => exact .same _ (by simp) (by simp) (by simp) _ rfl rfl rfl
      | some fd => exact .open fd errno (by simpa [Process.allows] using hok) _ rfl rfl rfl
    | flush fh dup errno =>
      rw [Process.perform, flush_fds]
      exact .same _ (by simp) (by simp) (by simp) _ rfl rfl rfl
    | release fh errno =>
      exact .release fh errno (by simpa [Process.allows] using hok) _ rfl rfl rfl
    | opendir address res errno =>
      cases res with
      | none => exact .same _ (by simp) (by simp) (by simp) _ rfl rfl rfl
      | some res =>
        obtain ⟨fd, names⟩ := res
        simp only [Process.allows, Option.all_some, decide_eq_true_eq] at hok
        exact .opendir address fd names errno hok.2 _ rfl rfl rfl
    | readdir address full errno =>
      have hsame : (cachingReaddir p address full errno).2.fds = p.fds ∧
          (cachingReaddir p address full errno).2.files = p.files ∧
          (cachingReaddir p address full errno).2.streams = p.streams := by
        rw [cachingReaddir]
        split
        · exact ⟨rfl, rfl, rfl⟩
        · split <;> exact ⟨rfl, rfl, rfl⟩
      exact .same _ (by simp) (by simp) (by simp) _ hsame.1 hsame.2.1 hsame.2.2
    | releasedir address errno =>
      have hclose : ∀ z, (releasedirAs p z address errno).2.fds = (close p.fds z).2 ∧
          (releasedirAs p z address errno).2.files = p.files ∧
          (releasedirAs p z address errno).2.streams = p.streams := fun z ↦ ⟨rfl, rfl, rfl⟩
      obtain ⟨h1, h2, h3⟩ := hclose (toInt32 address)
      rw [Process.perform, cachingReleasedir]
      exact .releasedir address errno _ h1 h2 h3

/-- **The step lemma.** -/
theorem Process.Accounted.step_iff (h : p.Accounted base) (hst : p.step limit e = some q) :
    q.Accounted base ↔ p.Harmless e := by
  rcases opens_of_step hst with ⟨fd, errno, -, q, hfds, hfiles, hstreams⟩ |
    ⟨fh, errno, hfh, q, hfds, hfiles, hstreams⟩ |
    ⟨address, fd, names, errno, -, q, hfds, hfiles, hstreams⟩ |
    ⟨address, errno, q, hfds, hfiles, hstreams⟩ |
    ⟨e, -, -, hrelease, q, hfds, hfiles, hstreams⟩
  · refine iff_of_true ?_ trivial
    rw [Process.Accounted, hfds, hfiles, hstreams]
    refine (h.cons fd).trans ?_
    rw [List.append_assoc, List.append_assoc, List.cons_append]
    exact List.perm_middle.symm
  · refine iff_of_true ?_ trivial
    have hmem : fh ∈ p.fds := h.mem_iff.mpr (by simp [hfh])
    rw [Process.Accounted, hfds, hfiles, hstreams, close_of_mem hmem]
    have hout : (base ++ p.files ++ p.streams).Perm
        (fh :: (base ++ p.files.erase fh ++ p.streams)) := by
      rw [List.append_assoc, List.append_assoc]
      exact (((List.perm_cons_erase hfh).append_right _).append_left base).trans List.perm_middle
    exact ((List.perm_cons_erase hmem).symm.trans (h.trans hout)).cons_inv
  · refine iff_of_true ?_ trivial
    rw [Process.Accounted, hfds, hfiles, hstreams]
    exact (h.cons fd).trans List.perm_middle.symm
  · by_cases hno : ∀ fd ∈ p.fds, (fd : ℤ) ≠ toInt32 address
    · refine iff_of_true ?_ hno
      rw [Process.Accounted, hfds, hfiles, hstreams, close_of_ne hno]
      exact h
    · refine iff_of_false (fun hq ↦ ?_) hno
      obtain ⟨fd, hmem, hfd⟩ : ∃ fd ∈ p.fds, (fd : ℤ) = toInt32 address := by
        simpa using hno
      have hlen := hq.length_eq
      rw [hfds, ← hfd, close_of_mem hmem, hfiles, hstreams, ← h.length_eq,
        List.length_erase_of_mem hmem] at hlen
      have hpos := List.length_pos_of_mem hmem
      omega
  · have hharm : p.Harmless e := by
      cases e with
      | releasedir address errno => exact absurd rfl (hrelease address errno)
      | _ => trivial
    refine iff_of_true ?_ hharm
    rw [Process.Accounted, hfds, hfiles, hstreams]
    exact h

/-- **When the descriptors are accounted for**: always, in exactly the runs in which no address of a
`CacheDir` is taken for a descriptor that is open. -/
theorem always_accounted_iff {es : List HandleCall} :
    Run.Always (Process.step limit) (Process.Accounted base) (.start base) es ↔
      Run.Meets (Process.step limit) Process.Harmless (.start base) es := by
  refine Run.Always.iff_meets (J := fun _ ↦ True) (fun _ _ _ _ h hst ↦ h.step_iff hst)
    (Run.always_of_invariant (fun _ _ _ _ _ ↦ trivial) trivial es) ?_
  rw [Process.Accounted, Process.start, List.append_nil, List.append_nil]

/-! ## How often directories can be opened -/

/-- The call opens a directory. -/
def HandleCall.opensDir : HandleCall → Bool
  | .opendir _ (some _) _ => true
  | _ => false

/-- The descriptors are different ones, and within the limit. -/
structure Process.Limited (limit : ℕ) (p : Process) : Prop where
  nodup : p.fds.Nodup
  lt : ∀ fd ∈ p.fds, fd < limit

theorem Process.Limited.le (h : p.Limited limit) : p.fds.length ≤ limit := by
  have hsub : p.fds ⊆ List.range limit := fun fd hfd ↦ List.mem_range.mpr (h.lt fd hfd)
  exact (List.subperm_of_subset h.nodup hsub).length_le.trans_eq List.length_range

theorem Process.Limited.step (h : p.Limited limit) (hst : p.step limit e = some q) :
    q.Limited limit := by
  have hcons : ∀ fd, p.free limit fd = true →
      (fd :: p.fds).Nodup ∧ ∀ x ∈ fd :: p.fds, x < limit := by
    intro fd hfd
    obtain ⟨hlt, hnew⟩ : fd < limit ∧ fd ∉ p.fds := by simpa [Process.free] using hfd
    exact ⟨List.nodup_cons.mpr ⟨hnew, h.nodup⟩, List.forall_mem_cons.mpr ⟨hlt, h.lt⟩⟩
  have hclose : ∀ z, (close p.fds z).2.Nodup ∧ ∀ x ∈ (close p.fds z).2, x < limit := by
    intro z
    rw [close]
    split
    · exact ⟨h.nodup.erase _, fun x hx ↦ h.lt x (List.mem_of_mem_erase hx)⟩
    · exact ⟨h.nodup, h.lt⟩
  rcases opens_of_step hst with ⟨fd, errno, hfd, q, hfds, -, -⟩ | ⟨fh, errno, -, q, hfds, -, -⟩ |
    ⟨address, fd, names, errno, hfd, q, hfds, -, -⟩ | ⟨address, errno, q, hfds, -, -⟩ |
    ⟨e, -, -, -, q, hfds, -, -⟩
  · exact ⟨hfds ▸ (hcons fd hfd).1, hfds ▸ (hcons fd hfd).2⟩
  · exact ⟨hfds ▸ (hclose fh).1, hfds ▸ (hclose fh).2⟩
  · exact ⟨hfds ▸ (hcons fd hfd).1, hfds ▸ (hcons fd hfd).2⟩
  · exact ⟨hfds ▸ (hclose (toInt32 address)).1, hfds ▸ (hclose (toInt32 address)).2⟩
  · exact ⟨hfds ▸ h.nodup, hfds ▸ h.lt⟩

theorem exec_streams {es : List HandleCall} (h : Run.exec (Process.step limit) p es = some q) :
    q.streams.length = p.streams.length + es.countP HandleCall.opensDir := by
  induction es generalizing p with
  | nil => rw [Option.some.inj h, List.countP_nil, Nat.add_zero]
  | cons e es ih =>
    obtain ⟨u, hu, hrest⟩ := Run.exec_cons_eq_some.mp h
    rw [ih hrest, List.countP_cons]
    rcases opens_of_step hu with ⟨fd, errno, -, u, -, -, hs⟩ | ⟨fh, errno, -, u, -, -, hs⟩ |
      ⟨address, fd, names, errno, -, u, -, -, hs⟩ | ⟨address, errno, u, -, -, hs⟩ |
      ⟨e, -, hopendir, -, u, -, -, hs⟩
    · rw [hs]
      rfl
    · rw [hs]
      rfl
    · rw [hs, List.length_cons]
      simp only [HandleCall.opensDir, if_true]
      omega
    · rw [hs]
      rfl
    · have hno : e.opensDir = false := by
        cases e with
        | opendir address res errno =>
          cases res with
          | none => rfl
          | some res => exact absurd rfl (hopendir address res errno)
        | _ => rfl
      rw [hs, hno]
      rfl

/-- **How often directories can be opened**, even if each of them is released: as often as there
are descriptors left, when no address is taken for a descriptor that is open. -/
theorem exec_opendir_le {es : List HandleCall} (hbase : base.Nodup) (hlt : ∀ fd ∈ base, fd < limit)
    (h : Run.exec (Process.step limit) (.start base) es = some p)
    (hes : Run.Meets (Process.step limit) Process.Harmless (.start base) es) :
    base.length + p.files.length + es.countP HandleCall.opensDir ≤ limit := by
  have hlimited : p.Limited limit :=
    Run.exec_induction (fun _ _ _ hp hst ↦ hp.step hst) (⟨hbase, hlt⟩ : (Process.start base).Limited
      limit) h
  have haccounted : p.Accounted base := by
    refine Run.meets_induction (I := Process.Accounted base)
      (fun _ _ _ hp hok hst ↦ (hp.step_iff hst).mpr hok) ?_ hes h
    rw [Process.Accounted, Process.start, List.append_nil, List.append_nil]
  have hlen := haccounted.length_eq
  rw [List.length_append, List.length_append, exec_streams h] at hlen
  have hle := hlimited.le
  have hnone : (Process.start base).streams.length = 0 := rfl
  omega

/-- A directory is opened and released, and opened again with the last descriptor. -/
def reopenedCalls : List HandleCall :=
  [.opendir 4096 (some (3, [[46], [46, 46]])) 0, .releasedir 4096 9,
    .opendir 4096 (some (4, [[46], [46, 46]])) 0]

theorem exec_opendir_le_sample : ∃ p,
    Run.exec (Process.step 5) (.start [0, 1, 2]) reopenedCalls = some p ∧
      3 + p.files.length + 2 ≤ 5 := by
  have hharmless :
      Run.Meets (Process.step 5) Process.Harmless (.start [0, 1, 2]) reopenedCalls := by
    refine fun s hs ↦ ⟨trivial, fun t ht ↦ ⟨?_, fun _ _ ↦ ⟨trivial, trivial⟩⟩⟩
    cases Option.some.inj hs
    change ∀ fd ∈ ([3, 0, 1, 2] : List ℕ), (fd : ℤ) ≠ toInt32 4096
    decide
  exact ⟨_, rfl, exec_opendir_le (by decide) (by decide) rfl hharmless⟩

/-! ## Listing a directory -/

/-- **The names of a directory**: those the stream has returned, and the rest.  Of those it has
returned, the kernel has taken some and refused the others. -/
def CacheDir.Listing (dir : CacheDir) : Prop :=
  ∃ read, dir.names = read ++ dir.rest ∧ dir.reported.Sublist read ∧
    read.length = dir.reported.length + dir.refused

theorem readdirFrom_listing {dir : CacheDir} {full : ℕ → Bool} {rest : List Path} {i : ℕ}
    (h : { dir with rest := rest }.Listing) : (readdirFrom full i dir rest).2.Listing := by
  induction rest generalizing dir i with
  | nil => exact h
  | cons name rest ih =>
    obtain ⟨read, hnames, hsub, hlen⟩ := h
    have hnames' : dir.names = read ++ [name] ++ rest := by
      rw [List.append_assoc]
      exact hnames
    rw [readdirFrom]
    split
    · refine ⟨read ++ [name], hnames', hsub.trans (List.sublist_append_left _ _), ?_⟩
      rw [List.length_append, hlen]
      rfl
    · refine ih ⟨read ++ [name], hnames', hsub.append (List.Sublist.refl _), ?_⟩
      rw [List.length_append, hlen, List.length_append]
      exact Nat.add_right_comm ..

/-- The directories that are open are in order. -/
def Process.Listings (p : Process) : Prop := ∀ address dir, p.dirs address = some dir → dir.Listing

theorem Process.Listings.update (h : p.Listings) {address : ℕ} {res : Option CacheDir}
    (hres : ∀ dir, res = some dir → dir.Listing)
    (hdirs : q.dirs = Function.update p.dirs address res) : q.Listings := by
  intro a dir hdir
  rw [hdirs] at hdir
  by_cases ha : a = address
  · rw [ha, Function.update_self] at hdir
    exact hres dir hdir
  · rw [Function.update_of_ne ha] at hdir
    exact h a dir hdir

theorem Process.Listings.step (h : p.Listings) (hst : p.step limit e = some q) : q.Listings := by
  rw [Process.step] at hst
  split at hst
  case isFalse => cases hst
  case isTrue =>
    rw [← Option.some.inj hst]
    cases e with
    | «open» res errno => cases res <;> exact h
    | flush fh dup errno =>
      rw [Process.perform, flush_fds]
      exact h
    | release => exact h
    | opendir address res errno =>
      cases res with
      | none => exact h
      | some res =>
        refine h.update (fun dir hdir ↦ ?_) rfl
        rw [← Option.some.inj hdir]
        exact ⟨[], rfl, List.Sublist.refl _, rfl⟩
    | readdir address full errno =>
      rw [Process.perform, cachingReaddir]
      cases hdir : p.dirs address with
      | none => exact h
      | some dir =>
        dsimp only
        split
        · exact h
        · refine h.update (fun dir' hdir' ↦ ?_) rfl
          rw [← Option.some.inj hdir']
          exact readdirFrom_listing (h address dir hdir)
    | releasedir address errno =>
      have hdirs : ∀ z, (releasedirAs p z address errno).2.dirs =
          Function.update p.dirs address none := fun z ↦ rfl
      rw [Process.perform, cachingReleasedir]
      exact h.update (fun dir hdir ↦ by cases hdir) (hdirs _)

/-- **When a directory was listed completely**, through any number of calls: exactly if its stream
is at its end, and the kernel has refused no name. -/
theorem listing_complete_iff {es : List HandleCall} {address : ℕ} {dir : CacheDir}
    (h : Run.exec (Process.step limit) (.start base) es = some p)
    (hdir : p.dirs address = some dir) :
    dir.reported = dir.names ↔ dir.rest = [] ∧ dir.refused = 0 := by
  have hlistings : p.Listings :=
    Run.exec_induction (fun _ _ _ hp hst ↦ hp.step hst) (fun _ _ hdir ↦ by cases hdir) h
  obtain ⟨read, hnames, hsub, hlen⟩ := hlistings address dir hdir
  constructor
  · intro heq
    have hlength := congrArg List.length hnames
    rw [← heq, List.length_append, hlen] at hlength
    exact ⟨List.eq_nil_of_length_eq_zero (by omega), by omega⟩
  · rintro ⟨hrest, hrefused⟩
    rw [hnames, hrest, List.append_nil]
    refine hsub.eq_of_length ?_
    rw [hlen, hrefused, Nat.add_zero]

/-- A directory of two names, the second of which is refused. -/
def refusedCalls : List HandleCall :=
  [.opendir 4096 (some (3, [[46], [46, 46]])) 0, .readdir 4096 (fun i ↦ i = 1) 0]

theorem listing_complete_iff_sample : ∃ p dir,
    Run.exec (Process.step 4) (.start [0, 1, 2]) refusedCalls = some p ∧
      p.dirs 4096 = some dir ∧ dir.rest = [] ∧ dir.reported ≠ dir.names := by
  obtain ⟨p, hp, hdir⟩ : ∃ p, Run.exec (Process.step 4) (.start [0, 1, 2]) refusedCalls = some p ∧
      p.dirs 4096 = some ⟨3, [[46], [46, 46]], [], [[46]], 1⟩ := ⟨_, rfl, rfl⟩
  refine ⟨p, _, hp, hdir, rfl, fun heq ↦ ?_⟩
  exact absurd ((listing_complete_iff hp hdir).mp heq).2 (by decide)

end CachingFs
