import OsExercises.CachingFs.Transparency

/-!
# Reads of a path that is not in the cache

When no block of a path is in the cache, `caching_read` could as well be one `pread`.  Its loop has
a bound, though: its counter starts with the number of the first block, counted from the start of
the file, and ends with a number of blocks that is counted from the offset.  So the loop of a read
that starts in the second half of a file does not turn at all.

`read_cold_iff` says which reads are answered like one `pread`.
-/

set_option autoImplicit false

namespace CachingFs

open CLib

variable {cfg : Config} {d : Disk} {c : Cache} {r : Read} {n : ℕ}

/-- The cache has no block of this path. -/
def Cold (c : Cache) (path : Path) : Prop := ∀ b ∈ c, b.path ≠ some path

theorem Cold.isInCache (h : Cold c r.path) (k : ℤ) : isInCache c r.path k = none :=
  isInCache_eq_none.mpr fun b hb hpath ↦ absurd hpath (h b hb)

/-- The read is answered like one `pread` of the whole request. -/
def LikePread (cfg : Config) (d : Disk) (c : Cache) (r : Read) : Prop :=
  ∃ a bytes, (d.read cfg c r).2 = some a ∧ d.pread r.path r.size r.offset = some bytes ∧
    a.buf = bytes ∧ a.returned = bytes.length

/-- How many bytes there are to be read from a file of length `n`. -/
def Read.available (n : ℕ) (r : Read) : ℕ := min r.size (n - r.offset)

/-- The request reaches to the end of a file of length `n`, or is taken to do so: it does not start
at the start of the file, or its end is behind the file's. -/
def Read.ToEnd (n : ℕ) (r : Read) : Prop := r.offset ≠ 0 ∨ n < r.size % 2 ^ 32

instance (n : ℕ) (r : Read) : Decidable (r.ToEnd n) :=
  inferInstanceAs (Decidable (r.offset ≠ 0 ∨ n < r.size % 2 ^ 32))

/-- The number of bytes that bounds the loop: what is left of the file, or the request. -/
def Read.bound (n : ℕ) (r : Read) : ℕ := if r.ToEnd n then (n - r.offset) % 2 ^ 64 else r.size

/-- The bytes to be read from a file of length `n` fit into so many blocks: those of the bound, less
the whole blocks in front of the offset, and one more.  The numbers of blocks are `int`s, and so is
the number of bytes. -/
def Read.Fits (cfg : Config) (n : ℕ) (r : Read) : Prop :=
  r.available n < 2 ^ 31 ∧ (r.available n = 0 ∨
    (r.available n : ℤ) ≤ cfg.blockSize * (toInt32 (r.bound n / cfg.blockSize : ℕ) -
      toInt32 (r.offset / cfg.blockSize : ℕ) + 1))

theorem span_eq (h : r.offset < n) : span n r = r.bound n := by
  have hrest : (((n : ℤ) - r.offset) % 2 ^ 64).toNat = (n - r.offset) % 2 ^ 64 := by omega
  rw [span, Read.bound, hrest]
  refine if_congr ?_ rfl rfl
  rw [Read.ToEnd]
  by_cases hzero : r.offset = 0
  · simp [hzero]
  · simp [hzero]

/-- The loop turns often enough in exactly the reads that fit. -/
theorem available_le_iff : r.available n ≤ turns cfg n r * cfg.blockSize ↔
    r.available n = 0 ∨ (r.available n : ℤ) ≤ cfg.blockSize *
      (toInt32 (r.bound n / cfg.blockSize : ℕ) - toInt32 (r.offset / cfg.blockSize : ℕ) + 1) := by
  by_cases hzero : r.available n = 0
  · simp [hzero]
  have hlt : r.offset < n := by
    rw [Read.available] at hzero
    omega
  rw [turns, span_eq hlt]
  set t := toInt32 (r.bound n / cfg.blockSize : ℕ) - toInt32 (r.offset / cfg.blockSize : ℕ) + 1
  have hmul : (r.available n ≤ t.toNat * cfg.blockSize) ↔
      (r.available n : ℤ) ≤ cfg.blockSize * (t.toNat : ℤ) := by
    rw [mul_comm (cfg.blockSize : ℤ)]
    exact_mod_cast Iff.rfl
  rw [hmul]
  rcases le_or_gt 0 t with ht | ht
  · rw [Int.toNat_of_nonneg ht]
    exact (or_iff_right hzero).symm
  · have hneg : (cfg.blockSize : ℤ) * t ≤ 0 :=
      mul_nonpos_of_nonneg_of_nonpos (Int.natCast_nonneg _) ht.le
    rw [Int.toNat_of_nonpos ht.le]
    simp only [hzero, false_or, Nat.cast_zero, mul_zero]
    omega

theorem toInt32_eq_iff (n : ℕ) : toInt32 n = n ↔ n < 2 ^ 31 := by
  refine ⟨fun h ↦ ?_, toInt32_of_lt⟩
  obtain ⟨-, -, -, hlt⟩ := toInt32_spec n
  omega

@[simp] theorem Answer.buf_of {data : List UInt8} (h : 0 ∉ data) : (Answer.of data).buf = data :=
  cString_of_notMem h

@[simp] theorem Answer.returned_of (data : List UInt8) :
    (Answer.of data).returned = toInt32 data.length := rfl

/-- **When a cold read is answered like one `pread`**: in exactly the reads that fit. -/
theorem read_cold_iff (hlen : 0 < c.length) (hcold : Cold c r.path) :
    LikePread cfg d c r ↔ r.Fits cfg (d.content r.path).length := by
  set len := (d.content r.path).length with hdef
  set data := ((d.content r.path).drop r.offset).take
    (min r.size (turns cfg len r * cfg.blockSize)) with hdata
  set bytes := ((d.content r.path).drop r.offset).take r.size with hbytes
  have hread : (d.read cfg c r).2 = some (.of data) :=
    read_of_misses hlen fun i _ _ ↦ hcold.isInCache _
  have hnul : 0 ∉ data := d.nul_notMem r.path _ _
  have havail : bytes.length = r.available len := by
    rw [hbytes, List.length_take, List.length_drop, Read.available]
  have heq : data = bytes ↔ r.available len ≤ turns cfg len r * cfg.blockSize := by
    rw [hdata, hbytes, List.take_eq_take_iff, List.length_drop, Read.available]
    omega
  have hlike : LikePread cfg d c r ↔ data = bytes ∧ bytes.length < 2 ^ 31 := by
    constructor
    · rintro ⟨a, b, ha, hb, hbuf, hret⟩
      have ha' : Answer.of data = a := Option.some.inj (hread.symm.trans ha)
      have hb' : bytes = b := Option.some.inj hb
      rw [← ha', ← hb', Answer.buf_of hnul] at hbuf
      rw [← ha', ← hb', Answer.returned_of, hbuf] at hret
      exact ⟨hbuf, (toInt32_eq_iff bytes.length).mp hret⟩
    · rintro ⟨hbuf, hret⟩
      refine ⟨_, _, hread, rfl, ?_, ?_⟩
      · rw [Answer.buf_of hnul, hbuf]
      · rw [Answer.returned_of, hbuf]
        exact (toInt32_eq_iff bytes.length).mpr hret
  rw [hlike, heq, havail, available_le_iff, Read.Fits, and_comm]

/-- Blocks of two bytes, and a file of ten. -/
def tenDisk : Disk := ⟨fun _ ↦ [97, 98, 99, 100, 101, 102, 103, 104, 105, 106], fun _ ↦ by decide⟩

theorem cold_cachingInit (path : Path) : Cold (cachingInit cfg) path :=
  fun _ hb ↦ path_ne_of_mem_cachingInit hb path

/-- A read of the last four bytes of a file of ten is answered with nothing. -/
theorem exists_not_likePread :
    ∃ cfg d r, Cold (cachingInit cfg) r.path ∧ ¬LikePread cfg d (cachingInit cfg) r := by
  refine ⟨sampleConfig, tenDisk, ⟨[47], 4, 6⟩, cold_cachingInit _, ?_⟩
  rintro ⟨a, bytes, ha, hb, hbuf, -⟩
  have hread : (tenDisk.read sampleConfig (cachingInit sampleConfig) ⟨[47], 4, 6⟩).2 =
      some ⟨[], 0⟩ := by decide
  rw [hread] at ha
  cases ha
  cases hb
  exact absurd hbuf (by decide)

theorem read_cold_iff_sample :
    LikePread sampleConfig tenDisk (cachingInit sampleConfig) ⟨[47], 4, 2⟩ :=
  (read_cold_iff (by decide) (cold_cachingInit _)).mpr ⟨by decide, .inr (by decide)⟩

end CachingFs
