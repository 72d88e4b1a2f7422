import OsExercises.ForMathlib.CLib

/-!
# The caching file system

`caching_read` goes through the blocks of a request, takes each from the cache or reads it into the
slot with the smallest counter, and appends it to its answer.

* `CacheBlock` is a slot of the cache, with `isInCache`, `searchMinCounter` and `updateBlock`.
* `turns` is how often the loop of `cachingRead` can turn: the C expression that bounds it, with its
  conversions.
* `turn` is one turn of the loop on the local variables of the call, and `cachingRead` the call.
* `cachingRename` changes the paths of slots.
* `pread` is a parameter of all this; `Disk` has the one of a regular file.
-/

set_option autoImplicit false

namespace CachingFs

open CLib

/-- A path, as a C string. -/
abbrev Path := List UInt8

/-- The program's arguments.  `main` takes positive ones only. -/
structure Config where
  blockSize : ℕ
  numOfBlocks : ℕ
  blockSize_pos : 0 < blockSize
  numOfBlocks_pos : 0 < numOfBlocks

/-- Blocks of two bytes, and a cache for two of them. -/
def sampleConfig : Config := ⟨2, 2, by decide, by decide⟩

/-! ## The cache -/

/-- A slot of the cache. -/
structure CacheBlock where
  /-- `_path`, which is `NULL` in a slot that was never used. -/
  path : Option Path
  /-- The C string at `_data`. -/
  data : List UInt8
  blockEnumerator : ℤ
  counter : ℕ
  deriving DecidableEq, Repr

/-- `cacheBlocks`. -/
abbrev Cache := List CacheBlock

/-- `caching_init`. -/
def cachingInit (cfg : Config) : Cache := List.replicate cfg.numOfBlocks ⟨none, [], 0, 0⟩

/-- `isInCache`, which compares the block number of a slot, an `int`, with the one looked for. -/
def isInCache (c : Cache) (path : Path) (offset : ℤ) : Option ℕ :=
  c.findIdx? fun b ↦ b.path = some path ∧ b.blockEnumerator = offset

/-- The loop of `searchMinCounter`, at the slot `i`. -/
def searchMinCounterFrom (i minCount indexOfMin : ℕ) : Cache → ℕ
  | [] => indexOfMin
  | b :: c =>
    if b.counter < minCount then searchMinCounterFrom (i + 1) b.counter i c
    else searchMinCounterFrom (i + 1) minCount indexOfMin c

/-- `searchMinCounter`. -/
def searchMinCounter (c : Cache) : ℕ := searchMinCounterFrom 0 (2 ^ 31 - 1) 0 c

/-- `updateBlock`.  The block number is converted to an `int`. -/
def updateBlock (path : Path) (data : List UInt8) (blockEnumerator : ℤ) (b : CacheBlock) :
    CacheBlock :=
  { b with
    path := some path, data := data, blockEnumerator := toInt32 blockEnumerator, counter := 0 }

/-- `increaseCount`. -/
def CacheBlock.increaseCount (b : CacheBlock) : CacheBlock := { b with counter := b.counter + 1 }

/-! ## Reading -/

/-- A call of `caching_read`. -/
structure Read where
  path : Path
  size : ℕ
  offset : ℕ
  deriving DecidableEq, Repr

/-- The number the loop's counter must not exceed, before the conversion to `int`.  The condition of
the source is `offset + ((unsigned int)(offset + size) > st_size)`, and the difference is one of
64-bit unsigned numbers. -/
def span (stSize : ℕ) (r : Read) : ℕ :=
  if r.offset + (if stSize < (r.offset + r.size) % 2 ^ 32 then 1 else 0) ≠ 0 then
    (((stSize : ℤ) - r.offset) % 2 ^ 64).toNat
  else r.size

/-- How often the loop of `caching_read` can turn: its counter starts with the number of the first
block, from zero, and it goes up to the bound, both of them `int`s.  The size is one that `fstat`
has returned, so it is not negative; where the bound is the largest `int`, the last `++i` of the
source is undefined, and the loop ends here as it does for any other bound. -/
def turns (cfg : Config) (stSize : ℕ) (r : Read) : ℕ :=
  (toInt32 (span stSize r / cfg.blockSize : ℕ) - toInt32 (r.offset / cfg.blockSize : ℕ) + 1).toNat

/-- The variables of a call of `caching_read`, with the cache. -/
structure Locals where
  cache : Cache
  data : List UInt8
  sizeLeftToRead : ℕ
  sizeToRead : ℕ
  finish : Bool
  deriving DecidableEq, Repr

/-- The variables before the loop. -/
def Locals.start (cfg : Config) (c : Cache) (r : Read) : Locals :=
  ⟨c, [], r.size, cfg.blockSize, false⟩

/-- The end of a turn: the slot is used, and its data are appended. -/
def Locals.use (l : Locals) (blockIndex : ℕ) : Locals :=
  { l with
    cache := l.cache.modify blockIndex CacheBlock.increaseCount
    data := l.data ++ (l.cache[blockIndex]?.map CacheBlock.data).getD [] }

/-- `advOffset`: where the next byte of the answer comes from. -/
def Locals.advOffset (r : Read) (l : Locals) : ℕ := r.offset + l.data.length

/-- `advOffset / blockSize`: the number of the next block, from zero. -/
def Locals.number (cfg : Config) (r : Read) (l : Locals) : ℕ := l.advOffset r / cfg.blockSize

/-- `sizeToRead`, after it was compared with what is left. -/
def Locals.toRead (cfg : Config) (l : Locals) : ℕ :=
  if l.sizeLeftToRead < cfg.blockSize then l.sizeLeftToRead else l.sizeToRead

/-- `pread` has returned some bytes of a block that was not in the cache, and they are put into the
slot with the smallest counter. -/
def Locals.load (cfg : Config) (r : Read) (l : Locals) (buff : List UInt8) : Locals :=
  { l with
    cache := l.cache.modify (searchMinCounter l.cache)
      (updateBlock r.path (cString buff) (l.number cfg r + 1))
    sizeLeftToRead := l.sizeLeftToRead - buff.length
    sizeToRead := l.toRead cfg
    finish := buff.length < cfg.blockSize }

/-- How a turn of the loop ends: with another turn to come, or with the end of the call, because
nothing was read or because `pread` failed. -/
inductive Turn
  | next (l : Locals)
  | stop
  | fail

/-- `pread` on the open file: so many bytes from this position, if it does not fail. -/
abbrev Pread := ℕ → ℕ → Option (List UInt8)

/-- One turn of the loop in `caching_read`. -/
def turn (cfg : Config) (pread : Pread) (r : Read) (l : Locals) : Turn :=
  match isInCache l.cache r.path (l.number cfg r + 1) with
  | some blockIndex => .next (l.use blockIndex)
  | none =>
    match pread (l.toRead cfg) (l.advOffset r) with
    | none => .fail
    | some [] => .stop
    | some (b :: buff) => .next ((l.load cfg r (b :: buff)).use (searchMinCounter l.cache))

/-- The loop of `caching_read`, when it can turn that often: the cache behind it, and the answer
unless it is an error. -/
def readLoop (cfg : Config) (pread : Pread) (r : Read) : ℕ → Locals → Cache × Option (List UInt8)
  | 0, l => (l.cache, some l.data)
  | n + 1, l =>
    if l.finish then (l.cache, some l.data)
    else
      match turn cfg pread r l with
      | .next l' => readLoop cfg pread r n l'
      | .stop => (l.cache, some l.data)
      | .fail => (l.cache, none)

/-- What the caller gets: the C string copied to `buf`, and `data.size()`. -/
structure Answer where
  buf : List UInt8
  count : ℕ
  deriving DecidableEq, Repr

/-- The value returned, which is an `int`. -/
def Answer.returned (a : Answer) : ℤ := toInt32 a.count

/-- The end of `caching_read`: `strcpy(buf, data.c_str())` and `return data.size()`. -/
def Answer.of (data : List UInt8) : Answer := ⟨cString data, data.length⟩

/-- `caching_read`, on a file of this size: the cache after it, and the answer. -/
def cachingRead (cfg : Config) (pread : Pread) (stSize : ℕ) (c : Cache) (r : Read) :
    Cache × Option Answer :=
  (readLoop cfg pread r (turns cfg stSize r) (.start cfg c r)).map id (Option.map Answer.of)

/-! ## Renaming -/

/-- `setPath`. -/
def CacheBlock.setPath (path : Path) (b : CacheBlock) : CacheBlock := { b with path := some path }

/-- `caching_rename`; `error` is the `errno` of `rename`, if that fails. -/
def cachingRename (error : Option ℕ) (path newpath : Path) (c : Cache) : ℤ × Cache :=
  match error with
  | some errno => (-errno, c)
  | none => (0, c.map fun b ↦ if b.path = some path then b.setPath newpath else b)

/-- A call of `caching_rename`, and the `errno` of `rename` if that fails. -/
structure Rename where
  path : Path
  newpath : Path
  error : Option ℕ
  deriving DecidableEq, Repr

/-! ## Files that do not change -/

/-- The contents of the files, none of which holds a NUL. -/
structure Disk where
  content : Path → List UInt8
  nulFree : ∀ p, 0 ∉ content p

/-- `pread` on a regular file: all the bytes there are. -/
def Disk.pread (d : Disk) (path : Path) : Pread := fun n pos ↦
  some (((d.content path).drop pos).take n)

/-- `caching_read` of a file on the disk. -/
def Disk.read (cfg : Config) (d : Disk) (c : Cache) (r : Read) : Cache × Option Answer :=
  cachingRead cfg (d.pread r.path) (d.content r.path).length c r

/-- The cache after a successful read. -/
def Disk.step (cfg : Config) (d : Disk) (c : Cache) (r : Read) : Option Cache :=
  if (d.read cfg c r).2.isSome then some (d.read cfg c r).1 else none

end CachingFs
