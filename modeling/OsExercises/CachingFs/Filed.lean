import OsExercises.CachingFs.Transparency
import OsExercises.CachingFs.Turns

/-!
# What the slots hold

A slot is filed under the number of the block that its first byte lies in, but it gets what `pread`
was asked for: a request can begin inside a block, and end before the block does.

* `Filed` says that every slot holds exactly the block it is filed under.
* `KeepsFiled` is the condition on a call: what it visits is in the cache, or it starts at a block
  and ends at one or covers what it visits.  `keepsFiled_of_dvd` are the requests made of blocks.
* `Steady` is what the turns of such a call keep (`Steady.use`, `Steady.loaded`).
* `always_filed`: runs of such calls keep the slots right.  On the empty cache the condition is
  exact for the lengths of the files: every other call puts something else into a slot, of this
  file or of one that is as long.
-/

set_option autoImplicit false

namespace CachingFs

open CLib

variable {cfg : Config} {d : Disk} {c : Cache} {r : Read} {l : Locals} {n i : ℕ}

/-- **Every slot holds exactly the block it is filed under.** -/
def Filed (cfg : Config) (d : Disk) (c : Cache) : Prop :=
  ∀ b ∈ c, ∀ path, b.path = some path →
    ∃ q : ℕ, b.blockEnumerator = q + 1 ∧ b.data = block cfg (d.content path) q

/-! ## The condition -/

/-- The numbers of the file's blocks that the loop may visit fit into an `int`. -/
def Read.Counted (cfg : Config) (d : Disk) (r : Read) : Prop :=
  ∀ i < turns cfg (d.content r.path).length r,
    r.offset + i * cfg.blockSize < (d.content r.path).length →
    r.offset / cfg.blockSize + i + 1 < 2 ^ 31

/-- The file's blocks that the loop may visit are in the cache. -/
def Read.Cached (cfg : Config) (d : Disk) (c : Cache) (r : Read) : Prop :=
  ∀ i < turns cfg (d.content r.path).length r,
    r.offset + i * cfg.blockSize < (d.content r.path).length →
    (isInCache c r.path ((r.offset / cfg.blockSize + i : ℕ) + 1)).isSome

/-- The read loads whole blocks only, under numbers that fit: it starts at a block, and it ends at
one or covers what it visits.  A read of nothing, or of what is in the cache, loads nothing. -/
def KeepsFiled (cfg : Config) (d : Disk) (c : Cache) (r : Read) : Prop :=
  r.size = 0 ∨ (d.content r.path).length ≤ r.offset ∨ r.Cached cfg d c ∨
    r.Counted cfg d ∧ cfg.blockSize ∣ r.offset ∧ (cfg.blockSize ∣ r.size ∨ r.Covers cfg d)

/-- A condition on the calls of a run. -/
def OnCalls (ok : Cache → Read → Prop) : Serving → DiskEvent → Prop
  | .idle c, .read r => ok c r
  | _, _ => True

theorem onCalls_turn (ok : Cache → Read → Prop) (s : Serving) : OnCalls ok s .turn := by
  cases s with
  | idle => trivial
  | reading => trivial

/-- The numbers of the blocks of a file that is not too long fit into an `int`. -/
theorem Read.counted_of_le (h : (d.content r.path).length ≤ (2 ^ 31 - 1) * cfg.blockSize) :
    r.Counted cfg d := by
  intro i _ hlt
  have hnum : (r.offset / cfg.blockSize + i) * cfg.blockSize < (2 ^ 31 - 1) * cfg.blockSize := by
    have hle := Nat.div_mul_le_self r.offset cfg.blockSize
    rw [Nat.add_mul]
    omega
  have := Nat.lt_of_mul_lt_mul_right hnum
  omega

/-- **Requests made of blocks** meet the condition, whatever is in the cache. -/
theorem keepsFiled_of_dvd (hoff : cfg.blockSize ∣ r.offset) (hsize : cfg.blockSize ∣ r.size)
    (h : (d.content r.path).length ≤ (2 ^ 31 - 1) * cfg.blockSize) : KeepsFiled cfg d c r :=
  .inr (.inr (.inr ⟨Read.counted_of_le h, hoff, .inl hsize⟩))

/-! ## One turn -/

theorem Filed.use (hc : Filed cfg d c) (i : ℕ) :
    Filed cfg d (c.modify i CacheBlock.increaseCount) := by
  intro b hb path hpath
  rcases mem_modify hb with hb | ⟨b₀, hb₀, rfl⟩
  · exact hc b hb path hpath
  · exact hc b₀ hb₀ path hpath

/-- A hit appends the block that was looked for. -/
theorem Filed.data_use (hc : Filed cfg d l.cache)
    (h : isInCache l.cache r.path (l.number cfg r + 1) = some i) :
    (l.use i).data = l.data ++ block cfg (d.content r.path) (l.number cfg r) := by
  obtain ⟨b, hb, hget, hpath, hnum⟩ := exists_of_isInCache h
  obtain ⟨q, hq, hdata⟩ := hc b hb r.path hpath
  obtain rfl : q = l.number cfg r := by omega
  simp [Locals.use, hget, hdata]

/-- What is in the cache is there when a slot was used. -/
theorem isInCache_use {path : Path} {k : ℤ} (h : (isInCache c path k).isSome) (i : ℕ) :
    (isInCache (c.modify i CacheBlock.increaseCount) path k).isSome := by
  obtain ⟨j, hj⟩ := Option.isSome_iff_exists.mp h
  obtain ⟨b, -, hget, hpath, hnum⟩ := exists_of_isInCache hj
  rw [Option.isSome_iff_ne_none, Ne, isInCache_eq_none]
  intro hno
  have hget' : (c.modify i CacheBlock.increaseCount)[j]? =
      some (if i = j then b.increaseCount else b) := by
    rw [List.getElem?_modify, hget]
    rfl
  refine hno _ (List.mem_of_getElem? hget') ?_ ?_
  · split <;> exact hpath
  · split <;> exact hnum

theorem data_loadedSlot_chunk (cfg : Config) (d : Disk) (r : Read) (l : Locals) :
    (loadedSlot cfg r l (chunk cfg d r l)).data = chunk cfg d r l :=
  cString_of_notMem (d.nul_notMem r.path _ _)

/-- A load keeps the slots right if it puts a block under its number. -/
theorem Filed.loaded (hc : Filed cfg d l.cache) {q : ℕ}
    (hq : toInt32 (l.number cfg r + 1) = q + 1)
    (hblock : chunk cfg d r l = block cfg (d.content r.path) q) :
    Filed cfg d (l.loaded cfg d r).cache := by
  intro b hb path hpath
  rcases mem_cache_put hb with hb | rfl
  · exact hc b hb path hpath
  · obtain rfl : r.path = path := Option.some.inj hpath
    refine ⟨q, ?_, (data_loadedSlot_chunk cfg d r l).trans hblock⟩
    rw [blockEnumerator_loadedSlot, hq]

/-- Where the slots are right after a load, it has put a block under its number. -/
theorem Filed.exists_block (h : Filed cfg d (l.loaded cfg d r).cache) (hlen : 0 < l.cache.length) :
    ∃ q : ℕ, toInt32 (l.number cfg r + 1) = q + 1 ∧
      chunk cfg d r l = block cfg (d.content r.path) q := by
  obtain ⟨q, hq, hblock⟩ := h _ (loadedSlot_mem hlen) r.path (path_loadedSlot _)
  rw [blockEnumerator_loadedSlot] at hq
  exact ⟨q, hq, (data_loadedSlot_chunk cfg d r l).symm.trans hblock⟩

/-- **What the turns of a call keep**, at the head of the loop: it loads nothing more, because it
has finished, or has nothing to read, or is behind the file, or finds what it visits; or it is at a
block, and loads whole blocks only. -/
def Steady (cfg : Config) (d : Disk) (r : Read) (n : ℕ) (l : Locals) : Prop :=
  l.finish = true ∨ l.sizeLeftToRead = 0 ∨ (d.content r.path).length ≤ l.advOffset r ∨
    (∀ i < n, l.advOffset r + i * cfg.blockSize < (d.content r.path).length →
      (isInCache l.cache r.path ((l.number cfg r + i : ℕ) + 1)).isSome) ∨
    (∀ i < n, l.advOffset r + i * cfg.blockSize < (d.content r.path).length →
      l.number cfg r + i + 1 < 2 ^ 31) ∧
    l.Aligned cfg r ∧ (cfg.blockSize ∣ l.sizeLeftToRead ∨ l.Covers cfg d r n)

theorem KeepsFiled.steady (h : KeepsFiled cfg d c r) :
    Steady cfg d r (turns cfg (d.content r.path).length r) (.start cfg c r) := by
  rcases h with hsize | hend | hhit | ⟨hcount, hal, hw⟩
  · exact .inr (.inl hsize)
  · exact .inr (.inr (.inl hend))
  · exact .inr (.inr (.inr (.inl hhit)))
  · exact .inr (.inr (.inr (.inr ⟨hcount, Locals.start_aligned hal,
      hw.imp id Locals.start_covers⟩)))

theorem number_of_advOffset {l' : Locals}
    (hadv : l'.advOffset r = l.advOffset r + cfg.blockSize) :
    l'.number cfg r = l.number cfg r + 1 := by
  rw [Locals.number, hadv, Nat.add_div_right _ cfg.blockSize_pos, Locals.number]

/-- What is said of the blocks to come is said of those after the next one. -/
theorem forall_next {P : ℕ → Prop} {l' : Locals}
    (h : ∀ i < n + 1, l.advOffset r + i * cfg.blockSize < (d.content r.path).length →
      P (l.number cfg r + i))
    (hadv : l'.advOffset r = l.advOffset r + cfg.blockSize) :
    ∀ i < n, l'.advOffset r + i * cfg.blockSize < (d.content r.path).length →
      P (l'.number cfg r + i) := by
  intro i hi hlt
  have hnext := h (i + 1) (Nat.succ_lt_succ hi) (by rw [Nat.succ_mul]; omega)
  rwa [number_of_advOffset hadv, Nat.add_right_comm, Nat.add_assoc]

/-- Where a hit appends its block, the next byte is a whole block further, or behind the file. -/
theorem Filed.advOffset_use (hc : Filed cfg d l.cache)
    (h : isInCache l.cache r.path (l.number cfg r + 1) = some i) :
    (l.use i).advOffset r = l.advOffset r + cfg.blockSize ∨
      (d.content r.path).length ≤ (l.use i).advOffset r := by
  have hadv : (l.use i).advOffset r =
      l.advOffset r + (block cfg (d.content r.path) (l.number cfg r)).length := by
    rw [Locals.advOffset, hc.data_use h, List.length_append, ← Nat.add_assoc, Locals.advOffset]
  have hle : l.number cfg r * cfg.blockSize ≤ l.advOffset r := Nat.div_mul_le_self _ _
  rw [length_block] at hadv
  omega

/-- **A hit keeps the condition.** -/
theorem Steady.use (h : Steady cfg d r (n + 1) l) (hc : Filed cfg d l.cache)
    (hi : isInCache l.cache r.path (l.number cfg r + 1) = some i) :
    Steady cfg d r n (l.use i) := by
  rcases hc.advOffset_use hi with hadv | hend
  · rcases h with hfin | hleft | hend | hhit | ⟨hcount, hal, hw⟩
    · exact .inl hfin
    · exact .inr (.inl hleft)
    · exact .inr (.inr (.inl (by omega)))
    · have hhit' := forall_next (P := fun k : ℕ ↦
        (isInCache l.cache r.path ((k : ℤ) + 1)).isSome) hhit hadv
      exact .inr (.inr (.inr (.inl fun j hj hlt ↦ isInCache_use (hhit' j hj hlt) i)))
    · exact .inr (.inr (.inr (.inr ⟨forall_next (P := fun k ↦ k + 1 < 2 ^ 31) hcount hadv,
        hal.next hadv, hw.imp id fun hcov ↦ hcov.next hadv (Nat.le_add_right _ _)⟩)))
  · exact .inr (.inr (.inl hend))

/-- **A load puts a block under its number**, and keeps the condition. -/
theorem Steady.loaded (h : Steady cfg d r (n + 1) l) (hlen : 0 < l.cache.length)
    (hfin : l.finish = false) (hsz : l.sizeToRead = cfg.blockSize)
    (hi : isInCache l.cache r.path (l.number cfg r + 1) = none) (hne : chunk cfg d r l ≠ []) :
    toInt32 (l.number cfg r + 1) = (l.number cfg r : ℕ) + 1 ∧
      chunk cfg d r l = block cfg (d.content r.path) (l.number cfg r) ∧
      Steady cfg d r n (l.loaded cfg d r) := by
  have hto := toRead_eq hsz
  have hpos := List.length_pos_iff.mpr hne
  have hchunk := length_chunk cfg d r l
  obtain ⟨hcount, hal, hw⟩ : (∀ i < n + 1,
      l.advOffset r + i * cfg.blockSize < (d.content r.path).length →
      l.number cfg r + i + 1 < 2 ^ 31) ∧
      l.Aligned cfg r ∧ (cfg.blockSize ∣ l.sizeLeftToRead ∨ l.Covers cfg d r (n + 1)) := by
    rcases h with hfin' | hleft | hend | hhit | h
    · rw [hfin] at hfin'
      cases hfin'
    · omega
    · omega
    · have hnow := hhit 0 (Nat.succ_pos n) (by omega)
      rw [Nat.add_zero, hi] at hnow
      cases hnow
    · exact h
  have hnum : l.number cfg r + 1 < 2 ^ 31 := hcount 0 (Nat.succ_pos n) (by omega)
  refine ⟨?_, chunk_eq_block hal hsz hne hw, ?_⟩
  · exact_mod_cast toInt32_of_lt hnum
  · by_cases hfull : (chunk cfg d r l).length = cfg.blockSize
    · obtain ⟨hadv, -, hleft, -⟩ := loaded_of_full hlen hsz hfull
      refine .inr (.inr (.inr (.inr ⟨forall_next (P := fun k ↦ k + 1 < 2 ^ 31) hcount hadv,
        hal.next hadv, hw.imp (fun hdvd ↦ ?_) fun hcov ↦ hcov.next hadv hleft.ge⟩)))
      exact (Nat.dvd_add_left (dvd_refl _)).mp (hleft ▸ hdvd)
    · -- a short piece is the last one
      refine .inl ?_
      rw [finish_loaded]
      exact decide_eq_true (by omega)

/-! ## Runs -/

/-- What holds in the course of a run. -/
def Serving.Steady (cfg : Config) (d : Disk) : Serving → Prop
  | .idle _ => True
  | .reading r n l => CachingFs.Steady cfg d r n l

/-- **The step lemma.** -/
theorem Filed.serve {s t : Serving} {e : DiskEvent} (hs : Filed cfg d s.cache)
    (hready : s.Ready cfg) (hsteady : s.Steady cfg d) (hok : OnCalls (KeepsFiled cfg d) s e)
    (h : d.serve cfg s e = some t) : Filed cfg d t.cache ∧ t.Steady cfg d := by
  have hserved := served_of_serve h
  match s, e with
  | .idle c, .read r' =>
    rcases hserved with ⟨c, r, stSize⟩
    exact ⟨hs, KeepsFiled.steady hok⟩
  | .idle c, .turn => nomatch hserved
  | .reading .., .read r' => nomatch hserved
  | .reading r n l, .turn =>
    have hlen : 0 < l.cache.length := hready.1 ▸ cfg.numOfBlocks_pos
    have hpread : d.pread r.path (l.toRead cfg) (l.advOffset r) = some (chunk cfg d r l) := rfl
    rw [Disk.event, hpread] at hserved
    rcases hserved with _ | _ | ⟨r, n, l, res, hfin⟩ | ⟨r, n, l, res, i, hfin, hi⟩ |
      ⟨r, n, l, res, hfin, hi, hres⟩ | ⟨r, n, l, buff, hfin, hi, hne, -⟩
    · exact ⟨hs, trivial⟩
    · exact ⟨hs.use i, CachingFs.Steady.use hsteady hs hi⟩
    · exact ⟨hs, trivial⟩
    · obtain ⟨hnum, hblock, hnext⟩ :=
        CachingFs.Steady.loaded hsteady hlen hfin (hready.2 hfin) hi hne
      exact ⟨hs.loaded hnum hblock, hnext⟩

theorem filed_cachingInit (cfg : Config) (d : Disk) : Filed cfg d (cachingInit cfg) :=
  fun _ hb path hpath ↦ absurd hpath (path_ne_of_mem_cachingInit hb path)

/-- **The run lemma**: calls that meet the condition keep the slots right. -/
theorem always_filed_of_meets {es : List DiskEvent}
    (hes : Run.Meets (d.serve cfg) (OnCalls (KeepsFiled cfg d)) (.idle (cachingInit cfg)) es) :
    Run.Always (d.serve cfg) (fun s ↦ Filed cfg d s.cache) (.idle (cachingInit cfg)) es := by
  refine Run.always_of_meets (I := fun s : Serving ↦ s.Ready cfg ∧ Filed cfg d s.cache ∧
    s.Steady cfg d) ?_ (fun _ hs ↦ hs.2.1) ⟨ready_cachingInit cfg, filed_cachingInit cfg d,
      trivial⟩ hes
  rintro s e t ⟨hready, hs, hsteady⟩ hok hst
  exact ⟨hready.serve hst, hs.serve hready hsteady hok hst⟩

/-! ## Other calls of the empty cache -/

theorem serve_loaded (hfin : l.finish = false)
    (hi : isInCache l.cache r.path (l.number cfg r + 1) = none) (hne : chunk cfg d r l ≠ []) :
    d.serve cfg (.reading r (n + 1) l) .turn = some (.reading r n (l.loaded cfg d r)) := by
  have hpread : d.pread r.path (l.toRead cfg) (l.advOffset r) = some (chunk cfg d r l) := rfl
  have hturn : turn cfg (fun _ _ ↦ some (chunk cfg d r l)) r l = .next (l.loaded cfg d r) := by
    rw [← turn_miss hi hne, turn_pread cfg (d.pread r.path), hpread]
  rw [Disk.serve, Disk.event, hpread, serve_turn hfin fun buff hbuff ↦ ?_, hturn]
  rw [← Option.some.inj hbuff, length_chunk]
  exact Nat.min_le_left _ _

/-- At the head of the loop, with none of the next blocks in the cache. -/
structure Blank (cfg : Config) (r : Read) (k : ℕ) (l : Locals) : Prop where
  length_pos : 0 < l.cache.length
  finish : l.finish = false
  sizeToRead : l.sizeToRead = cfg.blockSize
  miss : ∀ i ≤ k, isInCache l.cache r.path ((l.number cfg r + i : ℕ) + 1) = none

theorem blank_start (k : ℕ) : Blank cfg r k (.start cfg (cachingInit cfg) r) :=
  ⟨(length_cachingInit cfg).symm ▸ cfg.numOfBlocks_pos, rfl, rfl,
    fun _ _ ↦ isInCache_cachingInit cfg r.path _⟩

theorem Blank.now {k : ℕ} (h : Blank cfg r k l) :
    isInCache l.cache r.path (l.number cfg r + 1) = none := h.miss 0 (Nat.zero_le k)

/-- **Loads of whole blocks**, one after the other. -/
theorem Blank.exec {k : ℕ} (h : Blank cfg r k l) (hk : k < 2 ^ 32)
    (hleft : k * cfg.blockSize ≤ l.sizeLeftToRead)
    (hfile : l.advOffset r + k * cfg.blockSize ≤ (d.content r.path).length) :
    ∃ l', Run.exec (d.serve cfg) (.reading r (n + k) l) (.replicate k .turn) =
        some (.reading r n l') ∧ Blank cfg r 0 l' ∧
      l'.advOffset r = l.advOffset r + k * cfg.blockSize ∧
      l'.number cfg r = l.number cfg r + k ∧
      l'.sizeLeftToRead + k * cfg.blockSize = l.sizeLeftToRead := by
  have hbs := cfg.blockSize_pos
  induction k generalizing l with
  | zero => exact ⟨l, rfl, h, by simp, by simp, by simp⟩
  | succ k ih =>
    have hto := toRead_eq h.sizeToRead
    have hchunk := length_chunk cfg d r l
    rw [Nat.succ_mul] at hleft hfile
    have hfull : (chunk cfg d r l).length = cfg.blockSize := by omega
    have hne : chunk cfg d r l ≠ [] := List.length_pos_iff.mp (hfull ▸ hbs)
    obtain ⟨hadv, hsz, hleft', hfin⟩ := loaded_of_full h.length_pos h.sizeToRead hfull
    have hnum := number_of_advOffset hadv
    have h' : Blank cfg r k (l.loaded cfg d r) := by
      refine ⟨(length_loaded cfg d r l).symm ▸ h.length_pos, hfin, hsz, fun i hi ↦ ?_⟩
      have hnext := h.miss (i + 1) (Nat.succ_le_succ hi)
      rw [hnum, Nat.add_right_comm, Nat.add_assoc]
      refine isInCache_loaded hnext ?_
      exact_mod_cast toInt32_ne (m := l.number cfg r + 1) (by omega) (by omega)
    obtain ⟨l', hexec, hl', hadv', hnum', hleft''⟩ :=
      ih h' (by omega) (by omega) (by omega)
    refine ⟨l', ?_, hl', by rw [hadv', hadv, Nat.succ_mul]; omega, by omega,
      by rw [Nat.succ_mul]; omega⟩
    rw [List.replicate_succ, Run.exec_cons_eq_some]
    exact ⟨_, serve_loaded h.finish h.now hne, hexec⟩

/-- The same lengths: every byte is a 1, but the one at `pos` is a 2. -/
def Disk.marked (d : Disk) (pos : ℕ) : Disk where
  content path := (List.replicate (d.content path).length 1).set pos 2
  nulFree path h := by
    rcases List.mem_or_eq_of_mem_set h with h | h
    · exact absurd (List.eq_of_mem_replicate h) (by decide)
    · exact absurd h (by decide)

theorem Disk.length_marked (d : Disk) (pos : ℕ) (path : Path) :
    ((d.marked pos).content path).length = (d.content path).length := by
  rw [marked, List.length_set, List.length_replicate]

/-- What starts at the mark is no block that starts somewhere else. -/
theorem chunk_marked_ne {q : ℕ} (hsz : 0 < l.toRead cfg)
    (hlt : l.advOffset r < (d.content r.path).length) (hq : q * cfg.blockSize ≠ l.advOffset r) :
    chunk cfg (d.marked (l.advOffset r)) r l ≠
      block cfg ((d.marked (l.advOffset r)).content r.path) q := by
  intro h
  have hfirst := congrArg List.head? h
  rw [chunk, block, List.head?_take, List.head?_take, if_neg hsz.ne',
    if_neg cfg.blockSize_pos.ne', List.head?_drop, List.head?_drop, Disk.marked,
    List.getElem?_set_self (by simpa using hlt), List.getElem?_set_ne hq.symm,
    List.getElem?_replicate] at hfirst
  split at hfirst
  · exact absurd (Option.some.inj hfirst) (by decide)
  · cases hfirst

/-- **A load that puts no block under its number** is seen in the cache. -/
theorem Blank.not_filed {es : List DiskEvent}
    (h : Run.exec (d.serve cfg) (.idle (cachingInit cfg)) es = some (.reading r (n + 1) l))
    (hl : Blank cfg r 0 l) (hne : chunk cfg d r l ≠ [])
    (hno : ∀ q : ℕ, toInt32 (l.number cfg r + 1) = q + 1 →
      chunk cfg d r l ≠ block cfg (d.content r.path) q) :
    ¬Run.Always (d.serve cfg) (fun s ↦ Filed cfg d s.cache) (.idle (cachingInit cfg))
      (es ++ [.turn]) := by
  intro hall
  have hnow : Run.exec (d.serve cfg) (.reading r (n + 1) l) [.turn] =
      some (.reading r n (l.loaded cfg d r)) := by
    rw [Run.exec_cons_eq_some]
    exact ⟨_, serve_loaded hl.finish hl.now hne, rfl⟩
  have hexec : Run.exec (d.serve cfg) (.idle (cachingInit cfg)) (es ++ [.turn]) =
      some (.reading r n (l.loaded cfg d r)) := by
    rw [Run.exec_append, h, Option.bind_some, hnow]
  have hfiled : Filed cfg d (l.loaded cfg d r).cache := hall.of_exec hexec
  obtain ⟨q, hq, hblock⟩ := hfiled.exists_block hl.length_pos
  exact hno q hq hblock

theorem serve_read (cfg : Config) (d : Disk) (c : Cache) (r : Read) :
    d.serve cfg (.idle c) (.read r) =
      some (.reading r (turns cfg (d.content r.path).length r) (.start cfg c r)) := by
  rw [Disk.serve, Disk.event, CachingFs.serve]

/-- A read of some bytes that starts inside a block files what is no block, in a file of this
length. -/
theorem not_filed_of_not_dvd (hturns : turns cfg (d.content r.path).length r ≠ 0)
    (hsize : r.size ≠ 0) (hlt : r.offset < (d.content r.path).length)
    (hoff : ¬cfg.blockSize ∣ r.offset) :
    ¬Run.Always ((d.marked r.offset).serve cfg) (fun s ↦ Filed cfg (d.marked r.offset) s.cache)
      (.idle (cachingInit cfg)) [.read r, .turn] := by
  have hbs := cfg.blockSize_pos
  obtain ⟨n, hn⟩ := Nat.exists_eq_succ_of_ne_zero hturns
  have hexec : Run.exec ((d.marked r.offset).serve cfg) (.idle (cachingInit cfg)) [.read r] =
      some (.reading r (n + 1) (.start cfg (cachingInit cfg) r)) := by
    rw [Run.exec_cons_eq_some]
    exact ⟨_, serve_read .., by rw [d.length_marked, hn, Run.exec_nil]⟩
  have hto : (Locals.start cfg (cachingInit cfg) r).toRead cfg = min r.size cfg.blockSize :=
    toRead_eq rfl
  refine Blank.not_filed hexec (blank_start 0) (List.length_pos_iff.mp ?_) fun q _ ↦ ?_
  · rw [length_chunk, d.length_marked, hto, Locals.start_advOffset]
    omega
  · refine chunk_marked_ne (l := .start cfg (cachingInit cfg) r) (by omega) hlt fun hq ↦ ?_
    have hoffset : q * cfg.blockSize = r.offset := hq
    exact hoff ⟨q, by rw [← hoffset, Nat.mul_comm]⟩

/-- A read that starts at a block, and neither ends at one nor covers what it visits, files a
shorter piece. -/
theorem not_filed_of_not_covers (hcount : r.Counted cfg d) (hoff : cfg.blockSize ∣ r.offset)
    (hsize : ¬cfg.blockSize ∣ r.size) (hcov : ¬r.Covers cfg d) :
    ∃ es, ¬Run.Always (d.serve cfg) (fun s ↦ Filed cfg d s.cache) (.idle (cachingInit cfg))
      (.read r :: es) := by
  have hbs := cfg.blockSize_pos
  have hrest : r.size % cfg.blockSize ≠ 0 := fun h ↦ hsize (Nat.dvd_of_mod_eq_zero h)
  have hlt := Nat.mod_lt r.size hbs
  have hdiv := Nat.div_add_mod' r.size cfg.blockSize
  set k := r.size / cfg.blockSize
  rw [Read.Covers] at hcov
  have hk : k < turns cfg (d.content r.path).length r :=
    Nat.lt_of_mul_lt_mul_right (a := cfg.blockSize) (by omega)
  obtain ⟨n, hn⟩ := Nat.exists_eq_add_of_lt hk
  rw [Nat.add_assoc, Nat.add_comm] at hn
  have hle := turns_le cfg (d.content r.path).length r
  have hblank : Blank cfg r k (.start cfg (cachingInit cfg) r) := blank_start k
  obtain ⟨l, hexec, hl, hadv, hnum, hleft⟩ := hblank.exec (d := d) (n := n + 1) (by omega)
    (by rw [Locals.start_sizeLeftToRead]; omega) (by rw [Locals.start_advOffset]; omega)
  rw [Locals.start_advOffset] at hadv
  rw [Locals.start_sizeLeftToRead] at hleft
  have hstart : Run.exec (d.serve cfg) (.idle (cachingInit cfg))
      (.read r :: .replicate k .turn) = some (.reading r (n + 1) l) := by
    rw [Run.exec_cons_eq_some]
    exact ⟨_, serve_read .., hn ▸ hexec⟩
  have hto := toRead_eq hl.sizeToRead
  have hchunk := length_chunk cfg d r l
  refine ⟨.replicate k .turn ++ [.turn], ?_⟩
  rw [← List.cons_append]
  refine Blank.not_filed hstart hl (List.length_pos_iff.mp (by omega)) fun q hq hblock ↦ ?_
  have hcount' := hcount k (by omega) (by omega)
  obtain rfl : q = l.number cfg r := by
    have hfits : l.number cfg r + 1 < 2 ^ 31 := by
      rw [hnum]
      exact hcount'
    have hsmall := toInt32_of_lt hfits
    rw [Nat.cast_add_one, hq] at hsmall
    omega
  have hlength := congrArg List.length hblock
  have hal : l.number cfg r * cfg.blockSize = l.advOffset r := by
    rw [hnum, hadv, Nat.add_mul, Locals.start_aligned hoff, Locals.start_advOffset]
  rw [length_block, hal] at hlength
  omega

/-- **When the slots hold the blocks they are filed under.**  Runs whose calls load whole blocks
only, or nothing, keep them so; and every other call of the empty cache, on a file whose blocks have
numbers that fit, files something else, of this file or of one as long. -/
theorem always_filed (cfg : Config) (d : Disk) :
    (∀ es : List DiskEvent,
      Run.Meets (d.serve cfg) (OnCalls (KeepsFiled cfg d)) (.idle (cachingInit cfg)) es →
      Run.Always (d.serve cfg) (fun s ↦ Filed cfg d s.cache) (.idle (cachingInit cfg)) es) ∧
    ∀ r : Read, (d.content r.path).length ≤ (2 ^ 31 - 1) * cfg.blockSize →
      ¬KeepsFiled cfg d (cachingInit cfg) r →
      ∃ d' : Disk, (∀ path, (d'.content path).length = (d.content path).length) ∧
        ∃ es, ¬Run.Always (d'.serve cfg) (fun s ↦ Filed cfg d' s.cache) (.idle (cachingInit cfg))
          (.read r :: es) := by
  refine ⟨fun es hes ↦ always_filed_of_meets hes, fun r hbig hnot ↦ ?_⟩
  rw [KeepsFiled, not_or, not_or, not_or, not_le] at hnot
  obtain ⟨hsize, hlt, hhit, hal⟩ := hnot
  have hcount : r.Counted cfg d := Read.counted_of_le hbig
  by_cases hoff : cfg.blockSize ∣ r.offset
  · have hw := fun h ↦ hal ⟨hcount, hoff, h⟩
    exact ⟨d, fun _ ↦ rfl, not_filed_of_not_covers hcount hoff (fun h ↦ hw (.inl h))
      fun h ↦ hw (.inr h)⟩
  · have hturns : turns cfg (d.content r.path).length r ≠ 0 := fun h ↦
      hhit fun i hi ↦ absurd (h ▸ hi) (Nat.not_lt_zero i)
    exact ⟨d.marked r.offset, d.length_marked r.offset, [.turn],
      not_filed_of_not_dvd hturns hsize hlt hoff⟩

/-- A read of a whole file keeps the slots right, and one of its second and third byte does not. -/
theorem always_filed_sample :
    Run.Always (sampleDisk.serve sampleConfig) (fun s ↦ Filed sampleConfig sampleDisk s.cache)
      (.idle (cachingInit sampleConfig)) [.read wholeRead, .turn, .turn, .turn] ∧
    ∃ d : Disk, (∀ path, (d.content path).length = 4) ∧ ∃ es,
      ¬Run.Always (d.serve sampleConfig) (fun s ↦ Filed sampleConfig d s.cache)
        (.idle (cachingInit sampleConfig)) (.read ⟨[47], 2, 1⟩ :: es) := by
  have hbig : ∀ r : Read, (sampleDisk.content r.path).length ≤
      (2 ^ 31 - 1) * sampleConfig.blockSize := fun r ↦ by simp [sampleDisk, sampleConfig]
  constructor
  · refine (always_filed sampleConfig sampleDisk).1 _ fun _ _ ↦ ⟨?_, fun _ _ ↦
      ⟨onCalls_turn _ _, fun _ _ ↦ ⟨onCalls_turn _ _, fun _ _ ↦ ⟨onCalls_turn _ _, trivial⟩⟩⟩⟩
    exact keepsFiled_of_dvd (by decide) (by decide) (hbig wholeRead)
  · refine (always_filed sampleConfig sampleDisk).2 ⟨[47], 2, 1⟩ (hbig _) ?_
    rintro (h | h | h | ⟨-, h, -⟩)
    · exact absurd h (by decide)
    · exact absurd h (by decide)
    · exact absurd (h 0 (by decide) (by decide)) (by decide)
    · exact absurd h (by decide)

/-- The second and third byte of the file `abcd` are read, and put under the number of its first
block. -/
theorem exists_not_filed :
    ¬∀ (cfg : Config) (d : Disk) (c : Cache) (rs : List Read),
      Run.exec (d.step cfg) (cachingInit cfg) rs = some c → Filed cfg d c := by
  intro h
  have hexec : Run.exec (sampleDisk.step sampleConfig) (cachingInit sampleConfig) [⟨[47], 2, 1⟩] =
      some [⟨some [47], [98, 99], 1, 1⟩, ⟨none, [], 0, 0⟩] := by decide
  obtain ⟨q, hq, hdata⟩ := h _ _ _ _ hexec _ (List.mem_cons_self ..) [47] rfl
  have hq : (1 : ℤ) = q + 1 := hq
  obtain rfl : q = 0 := by omega
  exact absurd hdata (by decide)

end CachingFs
