import OsExercises.CachingFs.Blocks
import OsExercises.ForMathlib.Run

/-!
# When the cache cannot be seen

A read is answered from a warm cache and from an empty one.  This file says when the two answers are
the same, for any history of earlier reads.

* `readLoop_of_misses` is the loop when it finds nothing in the cache.
* `KeepsBlocks` says which reads load whole blocks only, so that the cache stays coherent
  (`KeepsBlocks.coherent`).
* `Unseen` says which reads are answered as if the cache were empty: those that find nothing in it,
  and those whose request covers all the blocks the loop visits (`Unseen.read_eq`).
-/

set_option autoImplicit false

namespace CachingFs

open CLib

variable {cfg : Config} {d : Disk} {c : Cache} {r : Read} {l : Locals} {i n : ℕ}

/-! ## The loop -/

theorem readLoop_of_finish {pread : Pread} (hfin : l.finish = true) (n : ℕ) :
    readLoop cfg pread r n l = (l.cache, some l.data) := by
  cases n with
  | zero => rfl
  | succ n => rw [readLoop, if_pos hfin]

theorem readLoop_of_next {pread : Pread} {l' : Locals} (hfin : l.finish = false)
    (h : turn cfg pread r l = .next l') :
    readLoop cfg pread r (n + 1) l = readLoop cfg pread r n l' := by
  rw [readLoop, if_neg (by simp [hfin]), h]

theorem readLoop_of_stop {pread : Pread} (hfin : l.finish = false)
    (h : turn cfg pread r l = .stop) :
    readLoop cfg pread r (n + 1) l = (l.cache, some l.data) := by
  rw [readLoop, if_neg (by simp [hfin]), h]

theorem length_chunk (cfg : Config) (d : Disk) (r : Read) (l : Locals) :
    (chunk cfg d r l).length =
    min (l.toRead cfg) ((d.content r.path).length - l.advOffset r) := by
  rw [chunk, List.length_take, List.length_drop]

theorem toRead_eq (hsz : l.sizeToRead = cfg.blockSize) :
    l.toRead cfg = min l.sizeLeftToRead cfg.blockSize := by
  rw [Locals.toRead, hsz]
  split <;> omega

theorem advOffset_loaded (cfg : Config) (d : Disk) (r : Read) (hlen : 0 < l.cache.length) :
    (l.loaded cfg d r).advOffset r = l.advOffset r + (chunk cfg d r l).length := by
  rw [Locals.advOffset, Locals.advOffset, data_loaded cfg d r hlen, List.length_append,
    Nat.add_assoc]

/-- A piece of a file is the chunk that is read first, and the rest. -/
theorem chunk_append (m : ℕ) (hm : (chunk cfg d r l).length = l.toRead cfg) :
    chunk cfg d r l ++
        ((d.content r.path).drop (l.advOffset r + (chunk cfg d r l).length)).take m =
      ((d.content r.path).drop (l.advOffset r)).take (l.toRead cfg + m) := by
  rw [hm, chunk, List.take_add, List.drop_drop]

/-- **The loop, when nothing is in the cache**: it answers with the bytes of the file that it is
asked for, as far as it turns. -/
theorem readLoop_of_misses (hn : n ≤ 2 ^ 32) (hlen : 0 < l.cache.length) (hfin : l.finish = false)
    (hsz : l.sizeToRead = cfg.blockSize)
    (hmiss : ∀ i < n,
      i * cfg.blockSize ≤ min l.sizeLeftToRead ((d.content r.path).length - l.advOffset r) →
      isInCache l.cache r.path ((l.number cfg r + i : ℕ) + 1) = none) :
    (readLoop cfg (d.pread r.path) r n l).2 = some (l.data ++
      ((d.content r.path).drop (l.advOffset r)).take
        (min l.sizeLeftToRead (n * cfg.blockSize))) := by
  have hbs := cfg.blockSize_pos
  induction n generalizing l with
  | zero => simp [readLoop]
  | succ n ih =>
    have hnow : isInCache l.cache r.path (l.number cfg r + 1) = none :=
      hmiss 0 (Nat.succ_pos n) (by simp)
    have hto := toRead_eq hsz
    have hchunk := length_chunk cfg d r l
    rw [Nat.succ_mul]
    by_cases hnil : chunk cfg d r l = []
    · rw [readLoop_of_stop hfin (turn_eof hnow hnil)]
      rw [hnil, List.length_nil, hto] at hchunk
      have hrest : ((d.content r.path).drop (l.advOffset r)).take
          (min l.sizeLeftToRead (n * cfg.blockSize + cfg.blockSize)) = [] := by
        refine List.eq_nil_of_length_eq_zero ?_
        rw [List.length_take, List.length_drop]
        omega
      rw [hrest, List.append_nil]
    rw [readLoop_of_next hfin (turn_miss hnow hnil)]
    by_cases hshort : (chunk cfg d r l).length < cfg.blockSize
    · -- a short piece is the last one
      have hall : chunk cfg d r l = ((d.content r.path).drop (l.advOffset r)).take
          (min l.sizeLeftToRead (n * cfg.blockSize + cfg.blockSize)) := by
        rw [chunk, List.take_eq_take_iff, List.length_drop]
        omega
      rw [readLoop_of_finish (by simp [hshort]), data_loaded cfg d r hlen, hall]
    · have hfull : (chunk cfg d r l).length = cfg.blockSize := by omega
      have hadv := advOffset_loaded cfg d r hlen
      have hnum : (l.loaded cfg d r).number cfg r = l.number cfg r + 1 := by
        rw [Locals.number, hadv, hfull, Nat.add_div_right _ hbs, Locals.number]
      rw [ih (by omega) (by simpa using hlen) (by simp [hshort]) (by simp; omega),
        data_loaded cfg d r hlen, hadv, List.append_assoc, chunk_append _ (by omega),
        sizeLeftToRead_loaded]
      · congr 3
        omega
      · intro i hi hle
        rw [hadv, hfull, sizeLeftToRead_loaded] at hle
        have hnext := hmiss (i + 1) (by omega) (by rw [Nat.succ_mul]; omega)
        rw [hnum, Nat.add_right_comm, Nat.add_assoc]
        refine isInCache_loaded hnext ?_
        exact_mod_cast toInt32_ne (m := l.number cfg r + 1) (by omega) (by omega)

/-! ## Aligned reads of a coherent cache -/

/-- The next byte of the answer is the first one of a block. -/
def Locals.Aligned (cfg : Config) (r : Read) (l : Locals) : Prop :=
  l.number cfg r * cfg.blockSize = l.advOffset r

/-- What is left of the request covers what the loop may still visit of the file. -/
def Locals.Covers (cfg : Config) (d : Disk) (r : Read) (n : ℕ) (l : Locals) : Prop :=
  min (d.content r.path).length (l.advOffset r + n * cfg.blockSize) ≤
    l.advOffset r + l.sizeLeftToRead

theorem Locals.Covers.next {l' : Locals} (hcov : l.Covers cfg d r (n + 1))
    (hadv : l'.advOffset r = l.advOffset r + cfg.blockSize)
    (hleft : l.sizeLeftToRead ≤ l'.sizeLeftToRead + cfg.blockSize) : l'.Covers cfg d r n := by
  rw [Locals.Covers, Nat.succ_mul] at hcov
  rw [Locals.Covers, hadv]
  omega

/-- A whole block further, the next byte is the first one of the next block. -/
theorem Locals.Aligned.next {l' : Locals} (hal : l.Aligned cfg r)
    (h : l'.advOffset r = l.advOffset r + cfg.blockSize) : l'.Aligned cfg r := by
  have hnum : l'.number cfg r = l.number cfg r + 1 := by
    rw [Locals.number, h, Nat.add_div_right _ cfg.blockSize_pos, Locals.number]
  rw [Locals.Aligned, hnum, Nat.succ_mul, hal, h]

/-- An aligned `pread` of a whole block, or up to the end of the file, returns the block. -/
theorem chunk_eq_block (hal : l.Aligned cfg r) (hsz : l.sizeToRead = cfg.blockSize)
    (hne : chunk cfg d r l ≠ [])
    (hw : cfg.blockSize ∣ l.sizeLeftToRead ∨ l.Covers cfg d r (n + 1)) :
    chunk cfg d r l = block cfg (d.content r.path) (l.number cfg r) := by
  have hto := toRead_eq hsz
  have hpos := List.length_pos_iff.mpr hne
  rw [length_chunk] at hpos
  rw [chunk, block, hal, List.take_eq_take_iff, List.length_drop]
  rcases hw with hdvd | hcov
  · have hle := Nat.le_of_dvd (by omega) hdvd
    omega
  · rw [Locals.Covers, Nat.succ_mul] at hcov
    omega

/-- What is read from a file is one of its blocks, and has a number that fits. -/
theorem number_lt_of_chunk (hal : l.Aligned cfg r) (hne : chunk cfg d r l ≠ [])
    (hbig : (d.content r.path).length ≤ 2 ^ 32 * cfg.blockSize) :
    l.number cfg r * cfg.blockSize < (d.content r.path).length ∧ l.number cfg r < 2 ^ 32 := by
  have hpos := List.length_pos_iff.mpr hne
  rw [length_chunk] at hpos
  have hq : l.number cfg r * cfg.blockSize < (d.content r.path).length := by
    rw [hal]
    omega
  exact ⟨hq, Nat.lt_of_mul_lt_mul_right (hq.trans_le hbig)⟩

/-- Where a block is appended, the next byte is a whole block further, or behind the file. -/
theorem advOffset_of_block {l' : Locals} (hal : l.Aligned cfg r)
    (hdata : l'.data = l.data ++ block cfg (d.content r.path) (l.number cfg r)) :
    l'.advOffset r = l.advOffset r + cfg.blockSize ∨
      l'.advOffset r = max (l.advOffset r) (d.content r.path).length ∧
        (d.content r.path).length < l.advOffset r + cfg.blockSize := by
  have hadv : l'.advOffset r =
      l.advOffset r + (block cfg (d.content r.path) (l.number cfg r)).length := by
    rw [Locals.advOffset, hdata, List.length_append, ← Nat.add_assoc, Locals.advOffset]
  rw [length_block, hal] at hadv
  omega

/-- A turn that has loaded a whole block goes on as a hit would, with less left to read. -/
theorem loaded_of_full (hlen : 0 < l.cache.length) (hsz : l.sizeToRead = cfg.blockSize)
    (hfull : (chunk cfg d r l).length = cfg.blockSize) :
    (l.loaded cfg d r).advOffset r = l.advOffset r + cfg.blockSize ∧
      (l.loaded cfg d r).sizeToRead = cfg.blockSize ∧
      (l.loaded cfg d r).sizeLeftToRead + cfg.blockSize = l.sizeLeftToRead ∧
      (l.loaded cfg d r).finish = false := by
  have hto := toRead_eq hsz
  have hchunk := length_chunk cfg d r l
  refine ⟨hfull ▸ advOffset_loaded cfg d r hlen, ?_, ?_, by simp [hfull]⟩
  · rw [sizeToRead_loaded]
    omega
  · rw [sizeLeftToRead_loaded]
    omega

/-- **The loop keeps the cache coherent** when it starts at a block and the request ends at one, or
covers what the loop visits: then only whole blocks are loaded. -/
theorem readLoop_coherent (hlen : 0 < l.cache.length) (hc : Coherent cfg d l.cache)
    (hbig : (d.content r.path).length ≤ 2 ^ 32 * cfg.blockSize)
    (hw : (d.content r.path).length ≤ l.advOffset r ∨ l.Aligned cfg r ∧
      l.sizeToRead = cfg.blockSize ∧
        (cfg.blockSize ∣ l.sizeLeftToRead ∨ l.Covers cfg d r n)) :
    Coherent cfg d (readLoop cfg (d.pread r.path) r n l).1 ∧
      (readLoop cfg (d.pread r.path) r n l).1.length = l.cache.length := by
  induction n generalizing l with
  | zero => exact ⟨hc, rfl⟩
  | succ n ih =>
    by_cases hfin : l.finish = true
    · rw [readLoop_of_finish hfin]
      exact ⟨hc, rfl⟩
    have hfin' : l.finish = false := Bool.eq_false_iff.mpr hfin
    cases hcache : isInCache l.cache r.path (l.number cfg r + 1) with
    | some i =>
      rw [readLoop_of_next hfin' (turn_hit hcache)]
      obtain ⟨hdata, hlt⟩ := hc.data_use hcache
      have hgrow : l.advOffset r ≤ (l.use i).advOffset r := by
        rw [Locals.advOffset, Locals.advOffset, hdata, List.length_append]
        omega
      refine length_use l i ▸ ih (by simpa using hlen) (hc.use i) ?_
      rcases hw with hend | ⟨hal, hsz, hw⟩
      · exact .inl (hend.trans hgrow)
      · rcases advOffset_of_block hal hdata with hadv | ⟨hadv, -⟩
        · exact .inr ⟨hal.next hadv, hsz, hw.imp id fun hcov ↦
            hcov.next hadv (Nat.le_add_right _ _)⟩
        · exact .inl (by omega)
    | none =>
      by_cases hnil : chunk cfg d r l = []
      · rw [readLoop_of_stop hfin' (turn_eof hcache hnil)]
        exact ⟨hc, rfl⟩
      rw [readLoop_of_next hfin' (turn_miss hcache hnil)]
      have hpos := List.length_pos_iff.mpr hnil
      have hchunk := length_chunk cfg d r l
      obtain ⟨hal, hsz, hw⟩ := hw.resolve_left (by omega)
      have hblock := chunk_eq_block hal hsz hnil hw
      obtain ⟨hq, hq'⟩ := number_lt_of_chunk hal hnil hbig
      refine length_loaded cfg d r l ▸
        ih (by simpa using hlen) (hc.loaded hblock hq hq') ?_
      rcases advOffset_of_block hal (hblock ▸ data_loaded cfg d r hlen) with hadv | ⟨hadv, -⟩
      · have hfull : (chunk cfg d r l).length = cfg.blockSize := by
          rw [advOffset_loaded cfg d r hlen] at hadv
          omega
        obtain ⟨-, hsz', hleft, -⟩ := loaded_of_full hlen hsz hfull
        refine .inr ⟨hal.next hadv, hsz', hw.imp (fun hdvd ↦ ?_) fun hcov ↦
          hcov.next hadv hleft.ge⟩
        exact (Nat.dvd_add_left (dvd_refl _)).mp (hleft ▸ hdvd)
      · exact .inl (by omega)

/-- **The loop on a request that covers what it visits**: hits and misses give the same bytes. -/
theorem readLoop_of_covers (hlen : 0 < l.cache.length) (hc : Coherent cfg d l.cache)
    (hbig : (d.content r.path).length ≤ 2 ^ 32 * cfg.blockSize) (hfin : l.finish = false)
    (hsz : l.sizeToRead = cfg.blockSize) (hal : l.Aligned cfg r) (hcov : l.Covers cfg d r n)
    (hlast : n = 0 ∨
      l.advOffset r + (n - 1) * cfg.blockSize ≤ (d.content r.path).length) :
    (readLoop cfg (d.pread r.path) r n l).2 = some (l.data ++
      ((d.content r.path).drop (l.advOffset r)).take (n * cfg.blockSize)) := by
  have hbs := cfg.blockSize_pos
  induction n generalizing l with
  | zero => simp [readLoop]
  | succ n ih =>
    have hlast' := hlast.resolve_left (Nat.succ_ne_zero n)
    rw [Nat.add_sub_cancel] at hlast'
    -- the next block, and what follows it
    have happ : ((d.content r.path).drop (l.advOffset r)).take ((n + 1) * cfg.blockSize) =
        block cfg (d.content r.path) (l.number cfg r) ++
          ((d.content r.path).drop (l.advOffset r + cfg.blockSize)).take (n * cfg.blockSize) := by
      rw [Nat.succ_mul, Nat.add_comm, List.take_add, List.drop_drop, block, hal]
    have hrest : n ≠ 0 → l.advOffset r + cfg.blockSize + (n - 1) * cfg.blockSize ≤
        (d.content r.path).length := by
      intro hn
      obtain ⟨m, rfl⟩ := Nat.exists_eq_succ_of_ne_zero hn
      rw [Nat.succ_mul] at hlast'
      rw [Nat.succ_sub_one]
      omega
    rw [happ, ← List.append_assoc]
    have hchunk := length_chunk cfg d r l
    cases hcache : isInCache l.cache r.path (l.number cfg r + 1) with
    | some i =>
      rw [readLoop_of_next hfin (turn_hit hcache)]
      obtain ⟨hdata, hlt⟩ := hc.data_use hcache
      rcases advOffset_of_block hal hdata with hadv | ⟨-, hshort⟩
      · rw [ih (l := l.use i) (by simpa using hlen) (hc.use i) hfin hsz (hal.next hadv)
          (hcov.next hadv (Nat.le_add_right _ _)) ?_, hdata, hadv]
        rw [hadv]
        exact (eq_or_ne n 0).imp id hrest
      · -- the last block is the last one the loop visits
        obtain rfl : n = 0 := by
          by_contra hn
          have := hrest hn
          omega
        simp [readLoop, hdata]
    | none =>
      by_cases hnil : chunk cfg d r l = []
      · rw [readLoop_of_stop hfin (turn_eof hcache hnil)]
        have hto := toRead_eq hsz
        rw [hnil, List.length_nil, hto] at hchunk
        rw [Locals.Covers, Nat.succ_mul] at hcov
        have hend : (d.content r.path).length ≤ l.advOffset r := by omega
        rw [block, hal, List.drop_eq_nil_of_le hend,
          List.drop_eq_nil_of_le (hend.trans (Nat.le_add_right _ cfg.blockSize)), List.take_nil,
          List.take_nil, List.append_nil, List.append_nil]
      rw [readLoop_of_next hfin (turn_miss hcache hnil)]
      have hpos := List.length_pos_iff.mpr hnil
      have hblock := chunk_eq_block hal hsz hnil (.inr hcov)
      have hdata := data_loaded cfg d r hlen
      rcases advOffset_of_block hal (hblock ▸ hdata) with hadv | ⟨-, hshort⟩
      · have hfull : (chunk cfg d r l).length = cfg.blockSize := by
          rw [advOffset_loaded cfg d r hlen] at hadv
          omega
        obtain ⟨-, hsz', hleft, hfin'⟩ := loaded_of_full hlen hsz hfull
        obtain ⟨hq, hq'⟩ := number_lt_of_chunk hal hnil hbig
        rw [ih (l := l.loaded cfg d r) (by simpa using hlen) (hc.loaded hblock hq hq') hfin' hsz'
          (hal.next hadv) (hcov.next hadv hleft.ge) ?_, hdata, hadv, hblock]
        rw [hadv]
        exact (eq_or_ne n 0).imp id hrest
      · rw [readLoop_of_finish (by rw [finish_loaded]; simp; omega), hdata, hblock,
          List.drop_eq_nil_of_le hshort.le, List.take_nil, List.append_nil]

/-- On a disk the loop never fails, and it takes nothing from the answer. -/
theorem exists_readLoop (cfg : Config) (d : Disk) (r : Read) (n : ℕ) (l : Locals) :
    ∃ data, (readLoop cfg (d.pread r.path) r n l).2 = some data ∧
      l.data.length ≤ data.length := by
  induction n generalizing l with
  | zero => exact ⟨l.data, rfl, le_rfl⟩
  | succ n ih =>
    by_cases hfin : l.finish = true
    · exact ⟨l.data, by rw [readLoop_of_finish hfin], le_rfl⟩
    have hfin' : l.finish = false := Bool.eq_false_iff.mpr hfin
    cases hcache : isInCache l.cache r.path (l.number cfg r + 1) with
    | some i =>
      obtain ⟨data, hdata, hle⟩ := ih (l.use i)
      rw [readLoop_of_next hfin' (turn_hit hcache)]
      exact ⟨data, hdata, (length_data_le_use l i).trans hle⟩
    | none =>
      by_cases hnil : chunk cfg d r l = []
      · exact ⟨l.data, by rw [readLoop_of_stop hfin' (turn_eof hcache hnil)], le_rfl⟩
      obtain ⟨data, hdata, hle⟩ := ih (l.loaded cfg d r)
      rw [readLoop_of_next hfin' (turn_miss hcache hnil)]
      exact ⟨data, hdata, (length_data_le_use (l.load cfg r (chunk cfg d r l)) _).trans hle⟩

/-- A turn that answers with a block of `b` bytes leaves no more than this to be answered. -/
theorem min_le_turn {size offset left left' rest b : ℕ} (hleft : left ≤ left' + b) :
    min (size - offset) (min left (rest + b)) ≤
      b + min (size - (offset + b)) (min left' rest) := by omega

/-- **The loop never answers with too little**: hits only make the answer longer. -/
theorem le_length_readLoop (hlen : 0 < l.cache.length) (hc : Coherent cfg d l.cache)
    (hbig : (d.content r.path).length ≤ 2 ^ 32 * cfg.blockSize) (hfin : l.finish = false)
    (hsz : l.sizeToRead = cfg.blockSize) (hal : l.Aligned cfg r) :
    ∃ data, (readLoop cfg (d.pread r.path) r n l).2 = some data ∧
      l.data.length + min ((d.content r.path).length - l.advOffset r)
        (min l.sizeLeftToRead (n * cfg.blockSize)) ≤ data.length := by
  induction n generalizing l with
  | zero => exact ⟨l.data, rfl, by simp⟩
  | succ n ih =>
    have hto := toRead_eq hsz
    have hchunk := length_chunk cfg d r l
    rw [Nat.succ_mul]
    cases hcache : isInCache l.cache r.path (l.number cfg r + 1) with
    | some i =>
      rw [readLoop_of_next hfin (turn_hit hcache)]
      obtain ⟨hdata, hlt⟩ := hc.data_use hcache
      have hgrow := congrArg List.length hdata
      rw [List.length_append, length_block, hal] at hgrow
      rcases advOffset_of_block hal hdata with hadv | ⟨-, hshort⟩
      · obtain ⟨data, hloop, hle⟩ :=
          ih (l := l.use i) (by simpa using hlen) (hc.use i) hfin hsz (hal.next hadv)
        have hlonger : (l.use i).data.length = l.data.length + cfg.blockSize :=
          Nat.add_left_cancel (hadv.trans (Nat.add_assoc ..))
        rw [hadv, hlonger, Nat.add_assoc] at hle
        exact ⟨data, hloop,
          (Nat.add_le_add_left (min_le_turn (Nat.le_add_right _ _)) _).trans hle⟩
      · obtain ⟨data, hloop, hle⟩ := exists_readLoop cfg d r n (l.use i)
        exact ⟨data, hloop, by omega⟩
    | none =>
      by_cases hnil : chunk cfg d r l = []
      · refine ⟨l.data, by rw [readLoop_of_stop hfin (turn_eof hcache hnil)], ?_⟩
        rw [hnil, List.length_nil] at hchunk
        omega
      rw [readLoop_of_next hfin (turn_miss hcache hnil)]
      have hdata := data_loaded cfg d r hlen
      have hgrow := congrArg List.length hdata
      rw [List.length_append] at hgrow
      by_cases hfull : (chunk cfg d r l).length = cfg.blockSize
      · obtain ⟨hadv, hsz', hleft, hfin'⟩ := loaded_of_full hlen hsz hfull
        have hblock : chunk cfg d r l = block cfg (d.content r.path) (l.number cfg r) := by
          rw [chunk, block, hal, List.take_eq_take_iff, List.length_drop]
          omega
        obtain ⟨hq, hq'⟩ := number_lt_of_chunk hal hnil hbig
        obtain ⟨data, hloop, hle⟩ :=
          ih (l := l.loaded cfg d r) (by simpa using hlen) (hc.loaded hblock hq hq') hfin' hsz'
            (hal.next hadv)
        rw [hadv, hgrow, hfull, Nat.add_assoc] at hle
        exact ⟨data, hloop, (Nat.add_le_add_left (min_le_turn hleft.ge) _).trans hle⟩
      · refine ⟨l.data ++ chunk cfg d r l, ?_, ?_⟩
        · rw [readLoop_of_finish (by rw [finish_loaded]; simp; omega), hdata]
        · rw [List.length_append]
          omega

/-! ## Reads -/

/-- The request covers all the bytes of the file the loop visits. -/
def Read.Covers (cfg : Config) (d : Disk) (r : Read) : Prop :=
  min (d.content r.path).length
      (r.offset + turns cfg (d.content r.path).length r * cfg.blockSize) ≤ r.offset + r.size

/-- The numbers of the file's blocks fit into 32 bits. -/
def Read.Numbered (cfg : Config) (d : Disk) (r : Read) : Prop :=
  (d.content r.path).length ≤ 2 ^ 32 * cfg.blockSize

/-- The read loads whole blocks only: it starts at a block, and it ends at one or covers what it
visits.  A read of nothing loads nothing. -/
def KeepsBlocks (cfg : Config) (d : Disk) (r : Read) : Prop :=
  r.Numbered cfg d ∧ (turns cfg (d.content r.path).length r = 0 ∨
    (d.content r.path).length ≤ r.offset ∨
    cfg.blockSize ∣ r.offset ∧ (cfg.blockSize ∣ r.size ∨ r.Covers cfg d))

/-- The loop finds no block in the cache. -/
def Misses (cfg : Config) (d : Disk) (c : Cache) (r : Read) : Prop :=
  ∀ i < turns cfg (d.content r.path).length r,
    i * cfg.blockSize ≤ min r.size ((d.content r.path).length - r.offset) →
    isInCache c r.path ((r.offset / cfg.blockSize + i : ℕ) + 1) = none

/-- The cache makes no difference to the read: the loop finds nothing in it, or the read starts at a
block and covers what it visits, with the last turn not behind the end of the file. -/
def Unseen (cfg : Config) (d : Disk) (c : Cache) (r : Read) : Prop :=
  Misses cfg d c r ∨ r.Numbered cfg d ∧ cfg.blockSize ∣ r.offset ∧ r.Covers cfg d ∧
    r.offset + (turns cfg (d.content r.path).length r - 1) * cfg.blockSize ≤
      (d.content r.path).length

/-- The variables before the loop are at a block, if the read is. -/
theorem Locals.start_aligned (h : cfg.blockSize ∣ r.offset) : (start cfg c r).Aligned cfg r :=
  Nat.div_mul_cancel h

@[simp] theorem Locals.start_data : (start cfg c r).data = [] := rfl

@[simp] theorem Locals.start_advOffset : (start cfg c r).advOffset r = r.offset := rfl

@[simp] theorem Locals.start_sizeLeftToRead : (start cfg c r).sizeLeftToRead = r.size := rfl

theorem Locals.start_covers (h : min (d.content r.path).length (r.offset + n * cfg.blockSize) ≤
    r.offset + r.size) : (start cfg c r).Covers cfg d r n := by
  rwa [Covers, start_advOffset, start_sizeLeftToRead]

theorem read_fst (cfg : Config) (d : Disk) (c : Cache) (r : Read) : (d.read cfg c r).1 =
    (readLoop cfg (d.pread r.path) r (turns cfg (d.content r.path).length r)
      (.start cfg c r)).1 := by
  rw [Disk.read, cachingRead, Prod.map_fst, id]

theorem read_snd (cfg : Config) (d : Disk) (c : Cache) (r : Read) : (d.read cfg c r).2 =
    (readLoop cfg (d.pread r.path) r (turns cfg (d.content r.path).length r)
      (.start cfg c r)).2.map Answer.of := by
  rw [Disk.read, cachingRead, Prod.map_snd]

theorem turns_le (cfg : Config) (n : ℕ) (r : Read) : turns cfg n r ≤ 2 ^ 32 := by
  obtain ⟨-, -, -, hhi⟩ := toInt32_spec (span n r / cfg.blockSize : ℕ)
  obtain ⟨-, -, hlo, -⟩ := toInt32_spec (r.offset / cfg.blockSize : ℕ)
  rw [turns]
  omega

/-- The last turn of a read of the usual size is not behind the end of the file. -/
theorem last_turn_le {n : ℕ} (hoff : r.offset ≤ n) (hnum : r.offset / cfg.blockSize < 2 ^ 31)
    (hsize : r.size < 2 ^ 32) : r.offset + (turns cfg n r - 1) * cfg.blockSize ≤ n := by
  have hbs := cfg.blockSize_pos
  have hspan : span n r ≤ n - r.offset ∨ r.offset = 0 ∧ span n r ≤ n := by
    by_cases hcond : r.offset + (if n < (r.offset + r.size) % 2 ^ 32 then 1 else 0) ≠ 0
    · left
      rw [span, if_pos hcond]
      omega
    · right
      rw [span, if_neg hcond]
      split at hcond <;> omega
  have hturns : turns cfg n r - 1 ≤ span n r / cfg.blockSize - r.offset / cfg.blockSize := by
    have hle := toInt32_natCast_le (span n r / cfg.blockSize)
    rw [turns, toInt32_of_lt hnum]
    omega
  have hmul : (turns cfg n r - 1) * cfg.blockSize ≤ span n r :=
    (Nat.mul_le_mul_right _ (hturns.trans (Nat.sub_le _ _))).trans (Nat.div_mul_le_self _ _)
  omega

/-- **A read is answered with what it asked for when its loop finds nothing in the cache.** -/
theorem read_of_misses (hlen : 0 < c.length) (hm : Misses cfg d c r) :
    (d.read cfg c r).2 = some (.of (((d.content r.path).drop r.offset).take
      (min r.size (turns cfg (d.content r.path).length r * cfg.blockSize)))) := by
  have hloop := readLoop_of_misses (l := .start cfg c r) (turns_le _ _ _) hlen rfl rfl hm
  rw [read_snd, hloop, Option.map_some, Locals.start_data, Locals.start_advOffset, List.nil_append,
    Locals.start_sizeLeftToRead]

/-- **Reads that load whole blocks only keep the cache coherent.** -/
theorem KeepsBlocks.coherent (h : KeepsBlocks cfg d r) (hlen : 0 < c.length)
    (hc : Coherent cfg d c) :
    Coherent cfg d (d.read cfg c r).1 ∧ (d.read cfg c r).1.length = c.length := by
  obtain ⟨hbig, h⟩ := h
  rcases h with hzero | hw
  · rw [read_fst, hzero, readLoop]
    exact ⟨hc, rfl⟩
  · rw [read_fst]
    refine readLoop_coherent (l := .start cfg c r) hlen hc hbig (hw.imp id fun ⟨hal, hw⟩ ↦ ?_)
    exact ⟨Locals.start_aligned hal, rfl, hw.imp id Locals.start_covers⟩

theorem exec_coherent {es : List Read} (h : Run.exec (d.step cfg) (cachingInit cfg) es = some c)
    (hes : Run.Meets (d.step cfg) (fun _ r ↦ KeepsBlocks cfg d r) (cachingInit cfg) es) :
    Coherent cfg d c ∧ c.length = cfg.numOfBlocks := by
  refine Run.meets_induction (I := fun c ↦ Coherent cfg d c ∧ c.length = cfg.numOfBlocks) ?_
    ⟨cachingInit_coherent cfg d, length_cachingInit cfg⟩ hes h
  rintro c r c' ⟨hc, hlen⟩ hr hst
  have hpos : 0 < c.length := hlen ▸ cfg.numOfBlocks_pos
  obtain ⟨hc', hlen'⟩ := hr.coherent hpos hc
  rw [Disk.step] at hst
  split at hst
  case isTrue => exact Option.some.inj hst ▸ ⟨hc', hlen'.trans hlen⟩
  case isFalse => cases hst

/-- The answer of the empty cache. -/
theorem read_cachingInit (cfg : Config) (d : Disk) (r : Read) :
    (d.read cfg (cachingInit cfg) r).2 = some (.of (((d.content r.path).drop r.offset).take
      (min r.size (turns cfg (d.content r.path).length r * cfg.blockSize)))) := by
  refine read_of_misses ?_ fun i _ _ ↦ isInCache_cachingInit cfg r.path _
  rw [length_cachingInit]
  exact cfg.numOfBlocks_pos

/-- **Where the cache makes no difference, it makes none.** -/
theorem Unseen.read_eq (h : Unseen cfg d c r) (hlen : 0 < c.length) (hc : Coherent cfg d c) :
    (d.read cfg c r).2 = (d.read cfg (cachingInit cfg) r).2 := by
  rw [read_cachingInit]
  rcases h with hm | ⟨hbig, hal, hcov, hlast⟩
  · exact read_of_misses hlen hm
  · have hloop := readLoop_of_covers (l := .start cfg c r) hlen hc hbig rfl rfl
      (Locals.start_aligned hal) (Locals.start_covers hcov)
      (.inr (by rwa [Locals.start_advOffset]))
    have htake : ((d.content r.path).drop r.offset).take
          (turns cfg (d.content r.path).length r * cfg.blockSize) =
        ((d.content r.path).drop r.offset).take
          (min r.size (turns cfg (d.content r.path).length r * cfg.blockSize)) := by
      rw [List.take_eq_take_iff, List.length_drop]
      rw [Read.Covers] at hcov
      omega
    rw [read_snd, hloop, Option.map_some, Locals.start_data, Locals.start_advOffset,
      List.nil_append, htake]

/-- **A hit on a request that does not cover what the loop visits is seen**: the answer is longer
than the request. -/
theorem size_lt_of_hit (hlen : 0 < c.length) (hc : Coherent cfg d c) (hbig : r.Numbered cfg d)
    (hal : cfg.blockSize ∣ r.offset) {i : ℕ}
    (hhit : isInCache c r.path ((r.offset / cfg.blockSize : ℕ) + 1) = some i)
    (hcov : ¬r.Covers cfg d) :
    ∃ data, (d.read cfg c r).2 = some (.of data) ∧ r.size < data.length := by
  have hbs := cfg.blockSize_pos
  obtain ⟨n, hn⟩ : ∃ n, turns cfg (d.content r.path).length r = n + 1 := by
    refine Nat.exists_eq_succ_of_ne_zero fun hzero ↦ hcov ?_
    rw [Read.Covers, hzero]
    omega
  rw [Read.Covers, hn, Nat.succ_mul] at hcov
  have hstart : (Locals.start cfg c r).Aligned cfg r := Locals.start_aligned hal
  have hdata := (hc.data_use (l := .start cfg c r) hhit).1
  have hgrow := congrArg List.length hdata
  rw [List.length_append, length_block, hstart, Locals.start_data, List.length_nil,
    Locals.start_advOffset] at hgrow
  have hread : (d.read cfg c r).2 =
      (readLoop cfg (d.pread r.path) r n ((Locals.start cfg c r).use i)).2.map Answer.of := by
    rw [read_snd, hn, readLoop_of_next rfl (turn_hit hhit)]
  rcases advOffset_of_block hstart hdata with hadv | ⟨-, hshort⟩
  · obtain ⟨data, hloop, hle⟩ := le_length_readLoop (n := n) (l := (Locals.start cfg c r).use i)
      ((length_use _ _).symm ▸ hlen) (hc.use i) hbig rfl rfl (hstart.next hadv)
    refine ⟨data, by rw [hread, hloop, Option.map_some], ?_⟩
    have hleft : ((Locals.start cfg c r).use i).sizeLeftToRead = r.size := rfl
    rw [hadv, Locals.start_advOffset] at hle
    omega
  · obtain ⟨data, hloop, hle⟩ :=
      exists_readLoop cfg d r n ((Locals.start cfg c r).use i)
    rw [Locals.start_advOffset] at hshort
    exact ⟨data, by rw [hread, hloop, Option.map_some], by omega⟩

/-- **The cache cannot be seen in the reads it makes no difference to**, after any reads that load
whole blocks only; and it is seen in every other read of a usual size that starts at a block which
is in the cache. -/
theorem read_unseen {es : List Read} (h : Run.exec (d.step cfg) (cachingInit cfg) es = some c)
    (hes : Run.Meets (d.step cfg) (fun _ r ↦ KeepsBlocks cfg d r) (cachingInit cfg) es) (r : Read) :
    (Unseen cfg d c r → (d.read cfg c r).2 = (d.read cfg (cachingInit cfg) r).2) ∧
      (r.Numbered cfg d → cfg.blockSize ∣ r.offset → r.offset / cfg.blockSize < 2 ^ 31 →
        r.size < 2 ^ 32 →
        (isInCache c r.path ((r.offset / cfg.blockSize : ℕ) + 1)).isSome →
        (d.read cfg c r).2 = (d.read cfg (cachingInit cfg) r).2 → Unseen cfg d c r) := by
  obtain ⟨hc, hlen⟩ := exec_coherent h hes
  have hpos : 0 < c.length := hlen ▸ cfg.numOfBlocks_pos
  refine ⟨fun hu ↦ hu.read_eq hpos hc, fun hbig hal hnum hsize hhit heq ↦ .inr ?_⟩
  obtain ⟨i, hi⟩ := Option.isSome_iff_exists.mp hhit
  have hcov : r.Covers cfg d := by
    by_contra hcov
    obtain ⟨data, hread, hlt⟩ := size_lt_of_hit hpos hc hbig hal hi hcov
    rw [hread, read_cachingInit, Option.some.injEq] at heq
    have hcount : data.length = _ := congrArg Answer.count heq
    simp only [Answer.of, List.length_take] at hcount
    omega
  have hoff : r.offset ≤ (d.content r.path).length := by
    obtain ⟨-, -, -, hlt⟩ := hc.hit hi
    rw [Nat.div_mul_cancel hal] at hlt
    exact hlt.le
  exact ⟨hbig, hal, hcov, last_turn_le hoff hnum hsize⟩

/-- Every file holds the same four bytes. -/
def sampleDisk : Disk := ⟨fun _ ↦ [97, 98, 99, 100], fun _ ↦ by decide⟩

/-- The whole file. -/
def wholeRead : Read := ⟨[47], 4, 0⟩

/-- Its first half. -/
def halfRead : Read := ⟨[47], 2, 0⟩

/-- The cache after the whole file was read. -/
def sampleCache : Cache := [⟨some [47], [97, 98], 1, 1⟩, ⟨some [47], [99, 100], 2, 1⟩]

theorem exec_wholeRead :
    Run.exec (sampleDisk.step sampleConfig) (cachingInit sampleConfig) [wholeRead] =
      some sampleCache := by
  decide

theorem read_halfRead :
    (sampleDisk.read sampleConfig sampleCache halfRead).2 = some ⟨[97, 98, 99, 100], 4⟩ ∧
      (sampleDisk.read sampleConfig (cachingInit sampleConfig) halfRead).2 =
        some ⟨[97, 98], 2⟩ := by
  decide

theorem read_wholeRead :
    (sampleDisk.read sampleConfig sampleCache wholeRead).2 = some ⟨[97, 98, 99, 100], 4⟩ ∧
      (sampleDisk.read sampleConfig (cachingInit sampleConfig) wholeRead).2 =
        some ⟨[97, 98, 99, 100], 4⟩ := by
  decide

/-- After the whole file was read, a read of its first half returns all of it. -/
theorem exists_seen :
    ∃ cfg d es c r, Run.exec (Disk.step cfg d) (cachingInit cfg) es = some c ∧
      (d.read cfg c r).2 ≠ (d.read cfg (cachingInit cfg) r).2 ∧
      ∃ a, (d.read cfg c r).2 = some a ∧ r.size < a.count := by
  refine ⟨_, _, _, _, halfRead, exec_wholeRead, ?_, _, read_halfRead.1, by decide⟩
  rw [read_halfRead.1, read_halfRead.2]
  decide

theorem read_unseen_sample :
    Unseen sampleConfig sampleDisk sampleCache wholeRead ∧
      ¬Unseen sampleConfig sampleDisk sampleCache halfRead := by
  have hnum : wholeRead.Numbered sampleConfig sampleDisk := by
    simp [Read.Numbered, sampleConfig, sampleDisk, wholeRead]
  have hkeeps : KeepsBlocks sampleConfig sampleDisk wholeRead :=
    ⟨hnum, .inr (.inr ⟨by decide, .inl (by decide)⟩)⟩
  have hmeets : Run.Meets (sampleDisk.step sampleConfig)
      (fun _ r ↦ KeepsBlocks sampleConfig sampleDisk r) (cachingInit sampleConfig) [wholeRead] :=
    fun _ _ ↦ ⟨hkeeps, trivial⟩
  constructor
  · have hcached : (isInCache sampleCache wholeRead.path
        ((wholeRead.offset / sampleConfig.blockSize : ℕ) + 1)).isSome := by decide
    exact (read_unseen exec_wholeRead hmeets wholeRead).2 hnum (by decide) (by simp [wholeRead])
      (by simp [wholeRead]) hcached (read_wholeRead.1.trans read_wholeRead.2.symm)
  · intro hunseen
    have heq := (read_unseen exec_wholeRead hmeets halfRead).1 hunseen
    rw [read_halfRead.1, read_halfRead.2] at heq
    exact absurd heq (by decide)

end CachingFs
