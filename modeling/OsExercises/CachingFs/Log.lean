import OsExercises.CachingFs.Turns
import OsExercises.ForMathlib.Separated

/-!
# The log

Every operation of the file system starts with a line in the log file: the time, and its name.
`caching_ioctl` goes on with a line for each slot that was used: its path, its number, and its
counter.  The log is only ever appended to, but it lies in the directory that is mounted, and
`caching_rename` can replace it or take it away.

* `Entry` is what a line tells, and `Entry.text` the line.
* `Mount` is the file system with its log, and `Mount.step` a call of an operation.
* `log_eq_iff`: the log tells everything that was entered, as long as the names of files have no
  newlines in them and the log is not renamed.
* `exists_forged`: a name with a newline makes up a line for a slot that is not there.
-/

set_option autoImplicit false

namespace CachingFs

open CLib

variable {cfg : Config} {c : Cache} {r : Read} {l : Locals} {path : Path}

/-! ## Lines -/

/-- The operations in `caching_oper`. -/
inductive Operation
  | getattr
  | access
  | open
  | read
  | flush
  | release
  | opendir
  | readdir
  | releasedir
  | rename
  | init
  | destroy
  | ioctl
  | fgetattr
  deriving DecidableEq, Repr

/-- Text as bytes. -/
def bytes (s : List Char) : List UInt8 := s.map fun c ↦ UInt8.ofNat c.toNat

/-- The name an operation logs. -/
def Operation.name : Operation → List UInt8
  | getattr => bytes ['g', 'e', 't', 'a', 't', 't', 'r']
  | access => bytes ['a', 'c', 'c', 'e', 's', 's']
  | .open => bytes ['o', 'p', 'e', 'n']
  | read => bytes ['r', 'e', 'a', 'd']
  | flush => bytes ['f', 'l', 'u', 's', 'h']
  | release => bytes ['r', 'e', 'l', 'e', 'a', 's', 'e']
  | opendir => bytes ['o', 'p', 'e', 'n', 'd', 'i', 'r']
  | readdir => bytes ['r', 'e', 'a', 'd', 'd', 'i', 'r']
  | releasedir => bytes ['r', 'e', 'l', 'e', 'a', 's', 'e', 'd', 'i', 'r']
  | rename => bytes ['r', 'e', 'n', 'a', 'm', 'e']
  | init => bytes ['i', 'n', 'i', 't']
  | destroy => bytes ['d', 'e', 's', 't', 'r', 'o', 'y']
  | ioctl => bytes ['i', 'o', 'c', 't', 'l']
  | fgetattr => bytes ['f', 'g', 'e', 't', 'a', 't', 't', 'r']

/-- What a line tells. -/
inductive Entry
  /-- An operation was called. -/
  | call (time : ℕ) (op : Operation)
  /-- A slot of the cache. -/
  | slot (path : Path) (blockEnumerator : ℤ) (counter : ℕ)
  deriving DecidableEq, Repr

/-- The text of a line. -/
def Entry.text : Entry → List UInt8
  | call time op => decimal time ++ 32 :: op.name
  | slot path blockEnumerator counter =>
    (path ++ 32 :: decimal blockEnumerator) ++ 32 :: decimal counter

/-- The log, in the mounted directory. -/
def logName : Path :=
  bytes ['/', '.', 'f', 'i', 'l', 'e', 's', 'y', 's', 't', 'e', 'm', '.', 'l', 'o', 'g']

/-- `writeToLog`, unless the log cannot be opened. -/
def writeToLog (file : List UInt8) (e : Entry) : List UInt8 := file ++ (e.text ++ [10])

/-! ## Calls -/

/-- A call of an operation: one that has to do with the cache, or another one.  A rename is given
with what the renamed file holds. -/
inductive Call
  | read (r : Read) (stSize : ℕ) (pread : Pread)
  | rename (e : Rename) (content : List UInt8)
  | init
  | ioctl
  | other (op : Operation)

/-- An other operation has nothing to do with the cache. -/
def Call.plain : Call → Bool
  | other .read | other .rename | other .init | other .ioctl => false
  | _ => true

/-- What a call of `caching_read` leaves in the cache. -/
def cacheAfter (p : Cache × Option Answer) : Cache := p.1

/-- The cache after a call. -/
def Call.after (cfg : Config) (c : Cache) : Call → Cache
  | read r stSize pread => cacheAfter (cachingRead cfg pread stSize c r)
  | rename e _ => (cachingRename e.error e.path e.newpath c).2
  | init => cachingInit cfg
  | ioctl | other _ => c

/-- The slots that were used. -/
def table (c : Cache) : List Entry :=
  c.filterMap fun b ↦ b.path.map fun path ↦ .slot path b.blockEnumerator b.counter

/-- What a call writes to the log, when it looks at the clock at these times.  `caching_read` calls
`caching_fgetattr`. -/
def Call.entries (c : Cache) (time : ℕ → ℕ) : Call → List Entry
  | read .. => [.call (time 0) .read, .call (time 1) .fgetattr]
  | rename .. => [.call (time 0) .rename]
  | init => [.call (time 0) .init]
  | ioctl => .call (time 0) .ioctl :: table c
  | other op => [.call (time 0) op]

/-- The log file after a call: another file can be renamed to it, and it can be renamed, so that
the next line starts a new file. -/
def Call.relog (file : List UInt8) : Call → List UInt8
  | rename e content =>
    if e.error.isSome || e.path = e.newpath then file
    else if e.newpath = logName then content
    else if e.path = logName then []
    else file
  | _ => file

/-- A call, with the times, and with the writes to the log that fail. -/
structure Logged where
  call : Call
  time : ℕ → ℕ
  fails : ℕ → Bool

/-- What comes to be in the log. -/
def Logged.entries (c : Cache) (e : Logged) : List Entry :=
  ((e.call.entries c e.time).zipIdx.filter fun p ↦ !e.fails p.2).map Prod.fst

/-- The file system, and what was entered in the log so far. -/
structure Mount where
  cache : Cache
  /-- The log file. -/
  file : List UInt8
  /-- What was entered. -/
  entries : List Entry

/-- After `caching_init`, with what the log file has from before. -/
def Mount.start (cfg : Config) (old : List UInt8) : Mount := ⟨cachingInit cfg, old, []⟩

/-- After a call. -/
def Mount.enter (cfg : Config) (m : Mount) (e : Logged) : Mount where
  cache := e.call.after cfg m.cache
  file := e.call.relog ((e.entries m.cache).foldl writeToLog m.file)
  entries := m.entries ++ e.entries m.cache

/-- A call of an operation. -/
def Mount.step (cfg : Config) (m : Mount) (e : Logged) : Option Mount :=
  if e.call.plain then some (m.enter cfg e) else none

/-! ## Lines are told apart -/

/-- A path as the kernel gives it, without a newline. -/
structure Legible (path : Path) : Prop where
  slash : path.head? = some 47
  newline : 10 ∉ path

/-- The line can be read. -/
def Entry.Legible : Entry → Prop
  | call .. => True
  | slot path .. => CachingFs.Legible path

/-- What `decimal` prints has no blanks and no newlines in it. -/
theorem notMem_decimal {b : UInt8} (hb : isdigit b = false) (hminus : b ≠ 45) (z : ℤ) :
    b ∉ decimal z := by
  intro h
  have hdigits : b ∉ digits z.natAbs := fun h ↦ by
    rw [isdigit_of_mem_digits h] at hb
    cases hb
  rw [decimal] at h
  split at h
  · exact (List.mem_cons.mp h).elim hminus hdigits
  · exact hdigits h

/-- Two integers are not printed alike. -/
theorem decimal_inj {y z : ℤ} (h : decimal y = decimal z) : y = z := by
  have hdigits : ∀ {m n : ℕ}, digits m = digits n → m = n := fun {m n} h ↦ by
    rwa [← decimal_natCast, ← decimal_natCast, decimal_natCast_inj] at h
  have hminus : ∀ {m n : ℕ}, 45 :: digits m ≠ digits n := fun {m n} h ↦ by
    have hmem : (45 : UInt8) ∈ digits n := h ▸ List.mem_cons_self
    exact absurd (isdigit_of_mem_digits hmem) (by decide)
  rw [decimal, decimal] at h
  split at h <;> split at h
  · have habs := hdigits (List.cons.inj h).2
    omega
  · exact absurd h hminus
  · exact absurd h.symm hminus
  · have habs := hdigits h
    omega

theorem name_inj {o o' : Operation} (h : o.name = o'.name) : o = o' := by
  revert h
  cases o <;> cases o' <;> decide

theorem notMem_name (o : Operation) : 10 ∉ o.name := by
  cases o <;> decide

/-- **A line tells one thing only.** -/
theorem text_inj {a b : Entry} (ha : a.Legible) (hb : b.Legible) (h : a.text = b.text) : a = b := by
  have hblank : ∀ z, (32 : UInt8) ∉ decimal z := fun z ↦ notMem_decimal (by decide) (by decide) z
  have hcall : ∀ (t : ℕ) o, ∃ b, (Entry.call t o).text.head? = some b ∧ isdigit b = true := by
    intro t o
    obtain ⟨b, l, hbl⟩ := List.exists_cons_of_ne_nil (decimal_natCast_ne_nil t)
    refine ⟨b, by rw [Entry.text, hbl]; rfl, isdigit_of_mem_digits (n := t) ?_⟩
    rw [← decimal_natCast, hbl]
    exact List.mem_cons_self
  have hslot : ∀ {p} z n, Legible p → (Entry.slot p z n).text.head? = some 47 := by
    intro p z n hp
    obtain ⟨q, rfl⟩ : ∃ q, p = 47 :: q := by
      have hslash := hp.slash
      cases p with
      | nil => cases hslash
      | cons b q => exact ⟨q, by rw [Option.some.inj hslash]⟩
    rfl
  have hne : ∀ {t o p z n}, Legible p → (Entry.call t o).text ≠ (Entry.slot p z n).text := by
    intro t o p z n hp heq
    obtain ⟨b, hb, hdigit⟩ := hcall t o
    rw [heq, hslot z n hp] at hb
    rw [← Option.some.inj hb] at hdigit
    exact absurd hdigit (by decide)
  cases a with
  | call t o =>
    cases b with
    | call t' o' =>
      obtain ⟨htime, hname⟩ := Separated.append_cons_inj (hblank t) (hblank t') h
      rw [decimal_natCast_inj.mp htime, name_inj hname]
    | slot p z n => exact absurd h (hne hb)
  | slot p z n =>
    cases b with
    | call t o => exact absurd h.symm (hne ha)
    | slot p' z' n' =>
      obtain ⟨hfront, hcounter⟩ := Separated.append_cons_inj_right (hblank n) (hblank n') h
      obtain ⟨hpath, hnumber⟩ := Separated.append_cons_inj_right (hblank z) (hblank z') hfront
      rw [hpath, decimal_inj hnumber, decimal_natCast_inj.mp hcounter]

theorem newline_notMem_text {a : Entry} (ha : a.Legible) : 10 ∉ a.text := by
  have hdecimal : ∀ z, (10 : UInt8) ∉ decimal z := fun z ↦ notMem_decimal (by decide) (by decide) z
  cases a with
  | call t o =>
    rw [Entry.text, List.mem_append, List.mem_cons]
    rintro (h | h | h)
    · exact hdecimal t h
    · cases h
    · exact notMem_name o h
  | slot p z n =>
    rw [Entry.text, List.mem_append, List.mem_append, List.mem_cons, List.mem_cons]
    rintro ((h | h | h) | h | h)
    · exact ha.newline h
    · cases h
    · exact hdecimal z h
    · cases h
    · exact hdecimal n h

/-! ## Runs -/

/-- The path a call can bring into the cache. -/
def Call.brings : Call → Option Path
  | read r .. => some r.path
  | rename e _ => some e.newpath
  | init | ioctl | other _ => none

/-- The call does not make the log illegible. -/
structure Call.Legible (e : Call) : Prop where
  /-- It brings no path into the cache but a legible one. -/
  path : ∀ path, e.brings = some path → CachingFs.Legible path
  /-- It does not rename the log, nor another file to it. -/
  log : ∀ file, e.relog file = file

/-- The paths in the cache have a property. -/
def PathsIn (P : Path → Prop) (c : Cache) : Prop := ∀ b ∈ c, ∀ path, b.path = some path → P path

theorem pathsIn_cachingInit (P : Path → Prop) : PathsIn P (cachingInit cfg) :=
  fun _ hb path hpath ↦ absurd hpath (path_ne_of_mem_cachingInit hb path)

theorem PathsIn.use {P : Path → Prop} (h : PathsIn P l.cache) (i : ℕ) :
    PathsIn P (l.use i).cache := by
  intro b hb path hpath
  rcases mem_modify hb with hb | ⟨b₀, hb₀, rfl⟩
  · exact h b hb path hpath
  · exact h b₀ hb₀ path hpath

theorem PathsIn.put {P : Path → Prop} (h : PathsIn P l.cache) (hr : P r.path) (buff : List UInt8) :
    PathsIn P (l.put cfg r buff).cache := by
  intro b hb path hpath
  rcases mem_cache_put hb with hb | rfl
  · exact h b hb path hpath
  · exact Option.some.inj hpath ▸ hr

/-- A read brings no other path into the cache than its own. -/
theorem PathsIn.readLoop {P : Path → Prop} {pread : Pread} (hr : P r.path) (n : ℕ)
    (h : PathsIn P l.cache) : PathsIn P (readLoop cfg pread r n l).1 := by
  induction n generalizing l with
  | zero => exact h
  | succ n ih =>
    rw [CachingFs.readLoop]
    split
    · exact h
    · rw [turn]
      cases hi : isInCache l.cache r.path (l.number cfg r + 1) with
      | some i => exact ih (h.use i)
      | none =>
        cases pread (l.toRead cfg) (l.advOffset r) with
        | none => exact h
        | some buff =>
          cases buff with
          | nil => exact h
          | cons b buff => exact ih (h.put hr (b :: buff))

theorem PathsIn.after {P : Path → Prop} {e : Call} (h : PathsIn P c)
    (he : ∀ path, e.brings = some path → P path) : PathsIn P (e.after cfg c) := by
  cases e with
  | read r stSize pread =>
    rw [Call.after, cacheAfter, fst_cachingRead]
    exact PathsIn.readLoop (he r.path rfl) _ h
  | rename e _ =>
    obtain ⟨old, new, error⟩ := e
    cases error with
    | some errno => exact h
    | none =>
      intro b hb path hpath
      obtain ⟨b₀, hb₀, rfl⟩ := List.mem_map.mp hb
      split at hpath
      · exact he path hpath
      · exact h b₀ hb₀ path hpath
  | init => exact pathsIn_cachingInit P
  | ioctl | other => exact h

/-- The cache and the lines are legible, and the file holds the lines. -/
structure Mount.Clear (old : List UInt8) (m : Mount) : Prop where
  cache : PathsIn Legible m.cache
  entries : ∀ a ∈ m.entries, a.Legible
  file : m.file = old ++ m.entries.flatMap fun a ↦ a.text ++ [10]

theorem foldl_writeToLog (file : List UInt8) (es : List Entry) :
    es.foldl writeToLog file = file ++ es.flatMap fun a ↦ a.text ++ [10] := by
  induction es generalizing file with
  | nil => simp
  | cons e es ih => rw [List.foldl_cons, ih, writeToLog, List.flatMap_cons, List.append_assoc]

/-- What is entered is a line of the call. -/
theorem Logged.mem_entries {e : Logged} {a : Entry} (ha : a ∈ e.entries c) :
    a ∈ e.call.entries c e.time := by
  obtain ⟨⟨b, i⟩, hb, rfl⟩ := List.mem_map.mp ha
  exact List.fst_mem_of_mem_zipIdx (List.mem_of_mem_filter hb)

theorem Call.legible_of_mem_entries {e : Call} {time : ℕ → ℕ} {a : Entry}
    (hc : PathsIn CachingFs.Legible c) (ha : a ∈ e.entries c time) : a.Legible := by
  have hcall : ∀ {t o}, (Entry.call t o).Legible := trivial
  have htable : a ∈ table c → a.Legible := fun ha ↦ by
    obtain ⟨b, hb, hslot⟩ := List.mem_filterMap.mp ha
    obtain ⟨path, hpath, rfl⟩ := Option.map_eq_some_iff.mp hslot
    exact hc b hb path hpath
  cases e with
  | read =>
    rcases List.mem_cons.mp ha with rfl | ha
    · exact hcall
    · exact List.mem_singleton.mp ha ▸ hcall
  | ioctl =>
    rcases List.mem_cons.mp ha with rfl | ha
    · exact hcall
    · exact htable ha
  | _ => exact List.mem_singleton.mp ha ▸ hcall

theorem Mount.Clear.step {old : List UInt8} {m n : Mount} {e : Logged} (h : m.Clear old)
    (he : e.call.Legible) (hst : m.step cfg e = some n) : n.Clear old := by
  rw [Mount.step] at hst
  split at hst
  · rw [← Option.some.inj hst]
    refine ⟨h.cache.after he.path, fun a ha ↦ ?_, ?_⟩
    · rcases List.mem_append.mp ha with ha | ha
      · exact h.entries a ha
      · exact Call.legible_of_mem_entries h.cache (Logged.mem_entries ha)
    · rw [Mount.enter, he.log, foldl_writeToLog, h.file, List.flatMap_append, List.append_assoc]
  · cases hst

/-- **The run lemma.** -/
theorem exec_clear {old : List UInt8} {m : Mount} {es : List Logged}
    (h : Run.exec (Mount.step cfg) (.start cfg old) es = some m)
    (hes : ∀ e ∈ es, e.call.Legible) : m.Clear old := by
  have hstart : (Mount.start cfg old).Clear old :=
    ⟨pathsIn_cachingInit Legible, List.forall_mem_nil _, (List.append_nil old).symm⟩
  exact Run.meets_induction (fun _ _ _ hm he hst ↦ hm.step he hst) hstart
    (Run.meets_of_forall hes) h

/-- **What the log tells**: two runs that leave the same log have entered the same, if no name of a
file has a newline in it and the log is not renamed. -/
theorem log_eq_iff {cfg' : Config} {old : List UInt8} {m m' : Mount} {es es' : List Logged}
    (h : Run.exec (Mount.step cfg) (.start cfg old) es = some m)
    (h' : Run.exec (Mount.step cfg') (.start cfg' old) es' = some m')
    (hes : ∀ e ∈ es, e.call.Legible) (hes' : ∀ e ∈ es', e.call.Legible) :
    m.file = m'.file ↔ m.entries = m'.entries := by
  have hm := exec_clear h hes
  have hm' := exec_clear h' hes'
  rw [hm.file, hm'.file, List.append_cancel_left_eq]
  constructor
  · exact Separated.flatMap_inj (fun _ ↦ newline_notMem_text) (fun _ _ ↦ text_inj) hm.entries
      hm'.entries
  · intro heq
    rw [heq]

/-- A call at the time zero, all of which is logged. -/
def Call.now (e : Call) : Logged := ⟨e, fun _ ↦ 0, fun _ ↦ false⟩

/-- A read of the first byte of a file that has one. -/
def readFirst (path : Path) : Call := .read ⟨path, 1, 0⟩ 1 fun _ _ ↦ some [97]

/-- A read of an empty file. -/
def readNothing (path : Path) : Call := .read ⟨path, 1, 0⟩ 0 fun _ _ ↦ some []

/-- Two files are read, and then the table is logged. -/
def honestCalls : List Logged :=
  [(readFirst [47, 97]).now, (readFirst [47, 98]).now, Call.ioctl.now]

theorem log_eq_iff_sample : ∃ m m',
    Run.exec (Mount.step sampleConfig) (.start sampleConfig []) honestCalls = some m ∧
      Run.exec (Mount.step sampleConfig) (.start sampleConfig []) [Call.ioctl.now] = some m' ∧
      m.file ≠ m'.file := by
  have hread : ∀ {path}, CachingFs.Legible path → (readFirst path).Legible := fun hpath ↦
    ⟨fun _ h ↦ Option.some.inj h ▸ hpath, fun _ ↦ rfl⟩
  have htable : Call.ioctl.Legible := ⟨fun _ h ↦ (by cases h), fun _ ↦ rfl⟩
  have hcalls : ∀ e ∈ honestCalls, e.call.Legible := by
    intro e he
    rcases List.mem_cons.mp he with rfl | he
    · exact hread ⟨rfl, by decide⟩
    · rcases List.mem_cons.mp he with rfl | he
      · exact hread ⟨rfl, by decide⟩
      · rw [List.mem_singleton.mp he]
        exact htable
  have hioctl : ∀ e ∈ [Call.ioctl.now], e.call.Legible := fun e he ↦ by
    rw [List.mem_singleton.mp he]
    exact htable
  refine ⟨_, _, rfl, rfl, fun hfile ↦ ?_⟩
  have hentries := (log_eq_iff rfl rfl hcalls hioctl).mp hfile
  exact absurd hentries (by decide)

/-- One file is read whose name holds a line of the log. -/
def forgedCalls : List Logged :=
  [(readFirst ([47, 97] ++ [32, 49, 32, 49, 10] ++ [47, 98])).now, (readNothing [47, 97]).now,
    Call.ioctl.now]

/-- **A name with a newline** makes up a line for a slot that is not there. -/
theorem exists_forged : ∃ m m',
    Run.exec (Mount.step sampleConfig) (.start sampleConfig []) honestCalls = some m ∧
      Run.exec (Mount.step sampleConfig) (.start sampleConfig []) forgedCalls = some m' ∧
      m.file = m'.file ∧ m.entries.length ≠ m'.entries.length := by
  refine ⟨_, _, rfl, rfl, ?_⟩
  decide

end CachingFs
