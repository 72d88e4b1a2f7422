import OsExercises.CachingFs.Defs

/-!
# Blocks of files in the cache

What one turn of the loop in `caching_read` does to the answer and to the cache.

* `block` is the piece of a file with a certain number.
* `Coherent` says that every slot holds exactly the block it is filed under.
* `turn_hit`, `turn_eof` and `turn_miss` are the three ways a turn goes on a disk: a hit appends a
  block, a miss appends and loads what `pread` returns, and at the end of the file the loop stops.
-/

set_option autoImplicit false

namespace CachingFs

open CLib

variable {cfg : Config} {d : Disk} {c : Cache} {r : Read} {l : Locals} {path : Path} {i : ℕ}

/-! ## The operations of the cache -/

theorem isInCache_eq_none {k : ℤ} :
    isInCache c path k = none ↔ ∀ b ∈ c, b.path = some path → b.blockEnumerator ≠ k := by
  simp [isInCache, List.findIdx?_eq_none_iff]

theorem exists_of_isInCache {k : ℤ} (h : isInCache c path k = some i) :
    ∃ b ∈ c, getElem? c i = some b ∧ b.path = some path ∧ b.blockEnumerator = k := by
  obtain ⟨hi, hb, -⟩ := List.findIdx?_eq_some_iff_getElem.mp h
  refine ⟨c.get ⟨i, hi⟩, List.getElem_mem hi, List.getElem?_eq_getElem hi, ?_⟩
  simpa using hb

theorem mem_modify {f : CacheBlock → CacheBlock} {b : CacheBlock} (hb : b ∈ c.modify i f) :
    b ∈ c ∨ ∃ b₀ ∈ c, b = f b₀ := by
  obtain ⟨j, hj⟩ := List.mem_iff_getElem?.mp hb
  rw [List.getElem?_modify] at hj
  obtain ⟨b₀, hb₀, rfl⟩ := Option.map_eq_some_iff.mp hj
  have hmem := List.mem_of_getElem? hb₀
  split
  · exact .inr ⟨b₀, hmem, rfl⟩
  · exact .inl hmem

theorem searchMinCounterFrom_lt {n k m j : ℕ} (hm : j < n) (hk : k + c.length ≤ n) :
    searchMinCounterFrom k m j c < n := by
  induction c generalizing k m j with
  | nil => exact hm
  | cons b c ih =>
    rw [List.length_cons] at hk
    rw [searchMinCounterFrom]
    split
    · exact ih (by omega) (by omega)
    · exact ih hm (by omega)

theorem searchMinCounter_lt (hc : 0 < c.length) : searchMinCounter c < c.length :=
  searchMinCounterFrom_lt hc (by omega)

theorem length_cachingInit (cfg : Config) : (cachingInit cfg).length = cfg.numOfBlocks :=
  List.length_replicate

/-- The cache of `caching_init` is empty. -/
theorem eq_of_mem_cachingInit {b : CacheBlock} (hb : b ∈ cachingInit cfg) :
    b = ⟨none, [], 0, 0⟩ :=
  List.eq_of_mem_replicate hb

theorem path_ne_of_mem_cachingInit {b : CacheBlock} (hb : b ∈ cachingInit cfg) (path : Path) :
    b.path ≠ some path := by
  rw [eq_of_mem_cachingInit hb]
  exact Option.some_ne_none path |>.symm

theorem isInCache_cachingInit (cfg : Config) (path : Path) (k : ℤ) :
    isInCache (cachingInit cfg) path k = none :=
  isInCache_eq_none.mpr fun _ hb hpath ↦ absurd hpath (path_ne_of_mem_cachingInit hb path)

/-! ## Blocks -/

/-- There is no NUL in a piece of a file. -/
theorem Disk.nul_notMem (d : Disk) (path : Path) (pos n : ℕ) :
    0 ∉ ((d.content path).drop pos).take n := fun h ↦
  d.nulFree path (List.mem_of_mem_drop (List.mem_of_mem_take h))

/-- The block of the file with this number, from zero: the last one may be shorter, and behind it
they are empty. -/
def block (cfg : Config) (file : List UInt8) (q : ℕ) : List UInt8 :=
  (file.drop (q * cfg.blockSize)).take cfg.blockSize

theorem length_block (cfg : Config) (file : List UInt8) (q : ℕ) :
    (block cfg file q).length = min cfg.blockSize (file.length - q * cfg.blockSize) := by
  rw [block, List.length_take, List.length_drop]

/-- **Every slot holds exactly the block it is filed under.**  Numbers that fit into 32 bits are
told apart by the `int`s they are converted to. -/
def Coherent (cfg : Config) (d : Disk) (c : Cache) : Prop :=
  ∀ b ∈ c, ∀ path, b.path = some path → ∃ q, q * cfg.blockSize < (d.content path).length ∧
    q < 2 ^ 32 ∧ b.blockEnumerator = toInt32 (q + 1 : ℕ) ∧ b.data = block cfg (d.content path) q

theorem cachingInit_coherent (cfg : Config) (d : Disk) : Coherent cfg d (cachingInit cfg) :=
  fun _ hb path hpath ↦ absurd hpath (path_ne_of_mem_cachingInit hb path)

/-- What is found in a coherent cache is the block that was looked for. -/
theorem Coherent.hit (hc : Coherent cfg d c) {q : ℕ}
    (h : isInCache c path ((q : ℤ) + 1) = some i) :
    ∃ b, getElem? c i = some b ∧ b.data = block cfg (d.content path) q ∧
      q * cfg.blockSize < (d.content path).length := by
  obtain ⟨b, hb, hget, hpath, hnum⟩ := exists_of_isInCache h
  obtain ⟨q', hlt, hq', hnum', hdata⟩ := hc b hb path hpath
  obtain ⟨k, hk, hlo, hhi⟩ := toInt32_spec (q' + 1 : ℕ)
  obtain rfl : q' = q := by omega
  exact ⟨b, hget, hdata, hlt⟩

theorem Coherent.use (hc : Coherent cfg d c) (i : ℕ) :
    Coherent cfg d (c.modify i CacheBlock.increaseCount) := by
  intro b hb path hpath
  rcases mem_modify hb with hb | ⟨b₀, hb₀, rfl⟩
  · exact hc b hb path hpath
  · exact hc b₀ hb₀ path hpath

/-- Loading a block keeps the cache coherent. -/
theorem Coherent.load (hc : Coherent cfg d c) {q : ℕ}
    (hq : q * cfg.blockSize < (d.content path).length) (hq' : q < 2 ^ 32) (i : ℕ) :
    Coherent cfg d
      (c.modify i (updateBlock path (cString (block cfg (d.content path) q)) ((q : ℤ) + 1))) := by
  have hnul : 0 ∉ block cfg (d.content path) q := d.nul_notMem path _ _
  intro b hb path' hpath
  rcases mem_modify hb with hb | ⟨b₀, hb₀, rfl⟩
  · exact hc b hb path' hpath
  · obtain rfl : path = path' := Option.some.inj hpath
    exact ⟨q, hq, hq', by simp [updateBlock], by simp [updateBlock, cString_of_notMem hnul]⟩

/-! ## One turn -/

/-- What `pread` returns on the disk for the next block. -/
def chunk (cfg : Config) (d : Disk) (r : Read) (l : Locals) : List UInt8 :=
  ((d.content r.path).drop (l.advOffset r)).take (l.toRead cfg)

/-- The variables after a turn that has loaded this. -/
def Locals.loaded (cfg : Config) (d : Disk) (r : Read) (l : Locals) : Locals :=
  (l.load cfg r (chunk cfg d r l)).use (searchMinCounter l.cache)

theorem turn_hit (h : isInCache l.cache r.path (l.number cfg r + 1) = some i) :
    turn cfg (d.pread r.path) r l = .next (l.use i) := by
  rw [turn, h]

theorem turn_eof (h : isInCache l.cache r.path (l.number cfg r + 1) = none)
    (hnil : chunk cfg d r l = []) : turn cfg (d.pread r.path) r l = .stop := by
  rw [chunk] at hnil
  rw [turn, h, Disk.pread, hnil]

theorem turn_miss (h : isInCache l.cache r.path (l.number cfg r + 1) = none)
    (hne : chunk cfg d r l ≠ []) :
    turn cfg (d.pread r.path) r l = .next (l.loaded cfg d r) := by
  obtain ⟨b, buff, hbuff⟩ := List.exists_cons_of_ne_nil hne
  rw [Locals.loaded, hbuff]
  rw [chunk] at hbuff
  rw [turn, h, Disk.pread, hbuff]

@[simp] theorem length_use (l : Locals) (i : ℕ) : (l.use i).cache.length = l.cache.length :=
  List.length_modify ..

@[simp] theorem length_loaded (cfg : Config) (d : Disk) (r : Read) (l : Locals) :
    (l.loaded cfg d r).cache.length = l.cache.length := by
  rw [Locals.loaded, length_use, Locals.load, List.length_modify]

@[simp] theorem sizeLeftToRead_loaded : (l.loaded cfg d r).sizeLeftToRead =
    l.sizeLeftToRead - (chunk cfg d r l).length := rfl

@[simp] theorem sizeToRead_loaded : (l.loaded cfg d r).sizeToRead = l.toRead cfg := rfl

@[simp] theorem finish_loaded :
    (l.loaded cfg d r).finish = decide ((chunk cfg d r l).length < cfg.blockSize) := rfl

theorem length_data_le_use (l : Locals) (i : ℕ) : l.data.length ≤ (l.use i).data.length := by
  rw [Locals.use, List.length_append]
  exact Nat.le_add_right _ _

/-- A miss appends what `pread` returned. -/
theorem data_loaded (cfg : Config) (d : Disk) (r : Read) (hlen : 0 < l.cache.length) :
    (l.loaded cfg d r).data = l.data ++ chunk cfg d r l := by
  have hi := searchMinCounter_lt hlen
  have hnul : 0 ∉ chunk cfg d r l := d.nul_notMem r.path _ _
  simp [Locals.loaded, Locals.use, Locals.load, hi, updateBlock, cString_of_notMem hnul]

/-- A hit in a coherent cache appends the next block. -/
theorem Coherent.data_use (hc : Coherent cfg d l.cache)
    (h : isInCache l.cache r.path (l.number cfg r + 1) = some i) :
    (l.use i).data = l.data ++ block cfg (d.content r.path) (l.number cfg r) ∧
      l.number cfg r * cfg.blockSize < (d.content r.path).length := by
  obtain ⟨b, hget, hdata, hlt⟩ := hc.hit h
  exact ⟨by simp [Locals.use, hget, hdata], hlt⟩

/-- What a miss loads is looked for under one number only. -/
theorem isInCache_loaded {k : ℤ} (h : isInCache l.cache r.path k = none)
    (hk : toInt32 (l.number cfg r + 1) ≠ k) :
    isInCache (l.loaded cfg d r).cache r.path k = none := by
  rw [isInCache_eq_none] at h ⊢
  have hload : ∀ b ∈ (l.load cfg r (chunk cfg d r l)).cache, b.path = some r.path →
      b.blockEnumerator ≠ k := by
    intro b hb hpath
    rcases mem_modify hb with hb | ⟨b₀, hb₀, rfl⟩
    · exact h b hb hpath
    · simpa [updateBlock] using hk
  intro b hb hpath
  rcases mem_modify hb with hb | ⟨b₀, hb₀, rfl⟩
  · exact hload b hb hpath
  · exact hload b₀ hb₀ hpath

/-- A miss that loads a whole block keeps the cache coherent. -/
theorem Coherent.loaded (hc : Coherent cfg d l.cache)
    (hblock : chunk cfg d r l = block cfg (d.content r.path) (l.number cfg r))
    (hq : l.number cfg r * cfg.blockSize < (d.content r.path).length)
    (hq' : l.number cfg r < 2 ^ 32) : Coherent cfg d (l.loaded cfg d r).cache := by
  rw [Locals.loaded, hblock]
  exact (hc.load hq hq' _).use _

end CachingFs
