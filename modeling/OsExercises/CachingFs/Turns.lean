import OsExercises.CachingFs.Blocks
import OsExercises.ForMathlib.Run

/-!
# The file system, turn by turn

A call of `caching_read` changes the cache in each turn of its loop, and can end between any two of
them.  What holds all the time is therefore stated on a machine whose steps are the turns.

* `Serving` is a state of it: between two calls, or at the head of the loop.
* `serve` is a step: a call begins, the loop turns, or `caching_rename` is called.  What `fstat` and
  `pread` return is part of the event.
* `Served` lists what a step can be, and `serve` makes no other one.
* `Disk.serve` is the same on files that do not change.
* `reaches_cachingRead` and `Disk.reaches_read` say that every call is a run of the machine, and
  `Disk.reaches_of_step` that every sequence of calls is.
-/

set_option autoImplicit false

namespace CachingFs

open CLib

variable {cfg : Config} {d : Disk} {c : Cache} {r : Read} {l : Locals} {n : ℕ}

/-! ## The machine -/

/-- Between two calls, or at the head of the loop of `caching_read`, which can turn so many times
more. -/
inductive Serving
  | idle (c : Cache)
  | reading (r : Read) (n : ℕ) (l : Locals)
  deriving DecidableEq, Repr

/-- The cache of a state. -/
def Serving.cache : Serving → Cache
  | idle c => c
  | reading _ _ l => l.cache

/-- A call of `caching_read` on a file of this size, the head of its loop with what `pread` returns
if it is called, or a call of `caching_rename`. -/
inductive Event
  | read (r : Read) (stSize : ℕ)
  | turn (res : Option (List UInt8))
  | rename (e : Rename)
  deriving DecidableEq, Repr

/-- A step of the machine.  `pread` returns no more than it was asked for. -/
def serve (cfg : Config) : Serving → Event → Option Serving
  | .idle c, .read r stSize => some (.reading r (turns cfg stSize r) (.start cfg c r))
  | .idle c, .rename e => some (.idle (cachingRename e.error e.path e.newpath c).2)
  | .reading _ 0 l, .turn _ => some (.idle l.cache)
  | .reading r (n + 1) l, .turn res =>
    if l.finish then some (.idle l.cache)
    else if res.any fun buff ↦ l.toRead cfg < buff.length then none
    else
      match turn cfg (fun _ _ ↦ res) r l with
      | .next l' => some (.reading r n l')
      | .stop | .fail => some (.idle l.cache)
  | _, _ => none

/-- A call of `caching_read`, or the head of its loop, when the files do not change. -/
inductive DiskEvent
  | read (r : Read)
  | turn
  deriving DecidableEq, Repr

/-- What the disk answers in this state. -/
def Disk.event (cfg : Config) (d : Disk) : Serving → DiskEvent → Event
  | _, .read r => .read r (d.content r.path).length
  | .reading r _ l, .turn => .turn (d.pread r.path (l.toRead cfg) (l.advOffset r))
  | .idle _, .turn => .turn none

/-- A step of the machine on files that do not change. -/
def Disk.serve (cfg : Config) (d : Disk) (s : Serving) (e : DiskEvent) : Option Serving :=
  CachingFs.serve cfg s (d.event cfg s e)

/-! ## Steps -/

/-- A slot after it was loaded and used. -/
def loadedSlot (cfg : Config) (r : Read) (l : Locals) (buff : List UInt8) : CacheBlock :=
  ⟨some r.path, cString buff, toInt32 (l.number cfg r + 1), 1⟩

@[simp] theorem path_loadedSlot (buff : List UInt8) :
    (loadedSlot cfg r l buff).path = some r.path := rfl

@[simp] theorem data_loadedSlot (buff : List UInt8) :
    (loadedSlot cfg r l buff).data = cString buff := rfl

@[simp] theorem blockEnumerator_loadedSlot (buff : List UInt8) :
    (loadedSlot cfg r l buff).blockEnumerator = toInt32 (l.number cfg r + 1) := by
  rw [loadedSlot]

@[simp] theorem counter_loadedSlot (buff : List UInt8) :
    (loadedSlot cfg r l buff).counter = 1 := rfl

/-- The variables after a turn that has loaded this. -/
def Locals.put (cfg : Config) (r : Read) (l : Locals) (buff : List UInt8) : Locals :=
  (l.load cfg r buff).use (searchMinCounter l.cache)

/-- What a step can be. -/
inductive Served (cfg : Config) : Serving → Event → Serving → Prop
  | read (c : Cache) (r : Read) (stSize : ℕ) :
    Served cfg (.idle c) (.read r stSize) (.reading r (turns cfg stSize r) (.start cfg c r))
  | rename (c : Cache) (e : Rename) :
    Served cfg (.idle c) (.rename e) (.idle (cachingRename e.error e.path e.newpath c).2)
  | done (r : Read) (n : ℕ) (l : Locals) (res : Option (List UInt8))
    (hfin : n = 0 ∨ l.finish = true) : Served cfg (.reading r n l) (.turn res) (.idle l.cache)
  | hit (r : Read) (n : ℕ) (l : Locals) (res : Option (List UInt8)) (i : ℕ)
    (hfin : l.finish = false) (hi : isInCache l.cache r.path (l.number cfg r + 1) = some i) :
    Served cfg (.reading r (n + 1) l) (.turn res) (.reading r n (l.use i))
  | nothing (r : Read) (n : ℕ) (l : Locals) (res : Option (List UInt8)) (hfin : l.finish = false)
    (hi : isInCache l.cache r.path (l.number cfg r + 1) = none)
    (hres : res = none ∨ res = some []) :
    Served cfg (.reading r (n + 1) l) (.turn res) (.idle l.cache)
  | load (r : Read) (n : ℕ) (l : Locals) (buff : List UInt8) (hfin : l.finish = false)
    (hi : isInCache l.cache r.path (l.number cfg r + 1) = none) (hne : buff ≠ [])
    (hlen : buff.length ≤ l.toRead cfg) :
    Served cfg (.reading r (n + 1) l) (.turn (some buff)) (.reading r n (l.put cfg r buff))

/-- `turn` calls `pread` in one place only. -/
theorem turn_pread (cfg : Config) (pread : Pread) (r : Read) (l : Locals) :
    turn cfg pread r l = turn cfg (fun _ _ ↦ pread (l.toRead cfg) (l.advOffset r)) r l := rfl

theorem serve_finish {res : Option (List UInt8)} (h : l.finish = true) :
    serve cfg (.reading r n l) (.turn res) = some (.idle l.cache) := by
  match n with
  | 0 => rfl
  | n + 1 => rw [serve, if_pos h]

theorem serve_turn {res : Option (List UInt8)} (h : l.finish = false)
    (hres : ∀ buff, res = some buff → buff.length ≤ l.toRead cfg) :
    serve cfg (.reading r (n + 1) l) (.turn res) =
      match turn cfg (fun _ _ ↦ res) r l with
      | .next l' => some (.reading r n l')
      | .stop | .fail => some (.idle l.cache) := by
  have hany : ¬(res.any fun buff ↦ l.toRead cfg < buff.length) = true := by
    match res with
    | none => simp
    | some buff => simpa using hres buff rfl
  rw [serve, if_neg (by simp [h]), if_neg hany]

/-- **The machine makes no other steps.** -/
theorem served_of_serve {s t : Serving} {e : Event} (h : serve cfg s e = some t) :
    Served cfg s e t := by
  match s, e with
  | .idle c, .read r stSize =>
    rw [serve, Option.some.injEq] at h
    exact h ▸ .read c r stSize
  | .idle c, .rename e =>
    rw [serve, Option.some.injEq] at h
    exact h ▸ .rename c e
  | .idle _, .turn _ | .reading .., .read .. | .reading .., .rename _ => simp [serve] at h
  | .reading r 0 l, .turn res =>
    rw [serve, Option.some.injEq] at h
    exact h ▸ .done r 0 l res (.inl rfl)
  | .reading r (n + 1) l, .turn res =>
    rw [serve] at h
    split_ifs at h with hfin hany
    · rw [Option.some.injEq] at h
      exact h ▸ .done r (n + 1) l res (.inr hfin)
    · have hfin' := Bool.eq_false_of_not_eq_true hfin
      match hi : isInCache l.cache r.path (l.number cfg r + 1), res with
      | some i, res =>
        rw [turn, hi, Option.some.injEq] at h
        exact h ▸ .hit r n l res i hfin' hi
      | none, none =>
        rw [turn, hi, Option.some.injEq] at h
        exact h ▸ .nothing r n l none hfin' hi (.inl rfl)
      | none, some [] =>
        rw [turn, hi, Option.some.injEq] at h
        exact h ▸ .nothing r n l (some []) hfin' hi (.inr rfl)
      | none, some (b :: buff) =>
        rw [turn, hi, Option.some.injEq] at h
        exact h ▸ .load r n l (b :: buff) hfin' hi (by simp) (by simpa using hany)

theorem cache_put (cfg : Config) (r : Read) (l : Locals) (buff : List UInt8) :
    (l.put cfg r buff).cache =
      l.cache.modify (searchMinCounter l.cache) fun _ ↦ loadedSlot cfg r l buff := by
  have hslot : CacheBlock.increaseCount ∘
      updateBlock r.path (cString buff) (l.number cfg r + 1) = fun _ ↦ loadedSlot cfg r l buff := by
    funext b
    simp only [Function.comp, updateBlock, CacheBlock.increaseCount, loadedSlot]
  rw [Locals.put, Locals.use, Locals.load, List.modify_modify_eq, hslot]

/-- A slot after a block was loaded is the loaded one, or one that was there. -/
theorem mem_cache_put {buff : List UInt8} {b : CacheBlock} (hb : b ∈ (l.put cfg r buff).cache) :
    b ∈ l.cache ∨ b = loadedSlot cfg r l buff := by
  rw [cache_put] at hb
  exact (mem_modify hb).imp_right fun ⟨_, _, h⟩ ↦ h

theorem loadedSlot_mem {buff : List UInt8} (hlen : 0 < l.cache.length) :
    loadedSlot cfg r l buff ∈ (l.put cfg r buff).cache := by
  rw [cache_put]
  refine List.mem_of_getElem? (i := searchMinCounter l.cache) ?_
  rw [List.getElem?_modify_eq, List.getElem?_eq_getElem (searchMinCounter_lt hlen)]
  rfl

/-! ## The size of the cache, and of the pieces that are read -/

/-- The cache has all its slots, and as long as the loop goes on, it asks for whole blocks. -/
def Serving.Ready (cfg : Config) : Serving → Prop
  | .idle c => c.length = cfg.numOfBlocks
  | .reading _ _ l => l.cache.length = cfg.numOfBlocks ∧
      (l.finish = false → l.sizeToRead = cfg.blockSize)

theorem length_cachingRename (error : Option ℕ) (path newpath : Path) (c : Cache) :
    (cachingRename error path newpath c).2.length = c.length := by
  match error with
  | none => exact List.length_map _
  | some _ => rfl

theorem length_cache_put (buff : List UInt8) :
    (l.put cfg r buff).cache.length = l.cache.length := by
  rw [cache_put, List.length_modify]

/-- A piece that is no whole block is the last one. -/
theorem sizeToRead_put {buff : List UInt8} (hsz : l.sizeToRead = cfg.blockSize)
    (hlen : buff.length ≤ l.toRead cfg) (hfin : (l.put cfg r buff).finish = false) :
    (l.put cfg r buff).sizeToRead = cfg.blockSize := by
  have hwhole : cfg.blockSize ≤ buff.length := by
    simpa [Locals.put, Locals.use, Locals.load] using hfin
  change l.toRead cfg = cfg.blockSize
  rw [Locals.toRead, hsz] at hlen ⊢
  split at hlen <;> split <;> omega

theorem Serving.Ready.serve {s t : Serving} {e : Event} (h : s.Ready cfg)
    (hstep : serve cfg s e = some t) : t.Ready cfg := by
  rcases served_of_serve hstep with ⟨c, r, stSize⟩ | ⟨c, e⟩ | ⟨r, n, l, res, -⟩ |
    ⟨r, n, l, res, i, hfin, -⟩ | ⟨r, n, l, res, -, -, -⟩ | ⟨r, n, l, buff, hfin, -, -, hlen⟩
  · exact ⟨h, fun _ ↦ rfl⟩
  · exact (length_cachingRename ..).trans h
  · exact h.1
  · exact ⟨(length_use l i).trans h.1, h.2⟩
  · exact h.1
  · exact ⟨(length_cache_put buff).trans h.1, sizeToRead_put (h.2 hfin) hlen⟩

theorem ready_cachingInit (cfg : Config) : (Serving.idle (cachingInit cfg)).Ready cfg :=
  length_cachingInit cfg

/-! ## Calls -/

/-- **The turns of a call.**  When the turns get what `pread` returns, the loop is a run of the
machine. -/
theorem reaches_readLoop {ε : Type} {step : Serving → ε → Option Serving} {pread : Pread}
    (hpread : ∀ n pos buff, pread n pos = some buff → buff.length ≤ n) {r : Read} (e : Locals → ε)
    (hstep : ∀ n l, step (.reading r n l) (e l) =
      serve cfg (.reading r n l) (.turn (pread (l.toRead cfg) (l.advOffset r)))) (n : ℕ)
    (l : Locals) : Run.Reaches step (.reading r n l) (.idle (readLoop cfg pread r n l).1) := by
  have hrefl : Run.Reaches step (.reading r n l) (.reading r n l) := .refl _
  induction n generalizing l with
  | zero => exact hrefl.tail (hstep 0 l)
  | succ n ih =>
    have hse := hstep (n + 1) l
    by_cases hfin : l.finish = true
    · rw [serve_finish hfin] at hse
      rw [readLoop, if_pos hfin]
      exact hrefl.tail hse
    · rw [serve_turn (Bool.eq_false_of_not_eq_true hfin) (hpread _ _), ← turn_pread] at hse
      rw [readLoop, if_neg hfin]
      match hturn : turn cfg pread r l with
      | .next l' =>
        rw [hturn] at hse
        exact (hrefl.tail hse).trans (ih l' (.refl _))
      | .stop | .fail =>
        rw [hturn] at hse
        exact hrefl.tail hse

theorem fst_cachingRead (cfg : Config) (pread : Pread) (stSize : ℕ) (c : Cache) (r : Read) :
    (cachingRead cfg pread stSize c r).1 =
      (readLoop cfg pread r (turns cfg stSize r) (.start cfg c r)).1 := by
  rw [cachingRead, Prod.map_fst, id]

/-- Every call of `caching_read` is a run of the machine. -/
theorem reaches_cachingRead {pread : Pread}
    (hpread : ∀ n pos buff, pread n pos = some buff → buff.length ≤ n) (stSize : ℕ) (c : Cache)
    (r : Read) :
    Run.Reaches (serve cfg) (.idle c) (.idle (cachingRead cfg pread stSize c r).1) := by
  have hstart : serve cfg (.idle c) (.read r stSize) =
      some (.reading r (turns cfg stSize r) (.start cfg c r)) := by rw [serve]
  rw [fst_cachingRead]
  exact ((Run.Reaches.refl _).tail hstart).trans (reaches_readLoop hpread
    (fun l ↦ .turn (pread (l.toRead cfg) (l.advOffset r))) (fun _ _ ↦ rfl) _ _)

/-- So it is when the files do not change. -/
theorem Disk.reaches_read (cfg : Config) (d : Disk) (c : Cache) (r : Read) :
    Run.Reaches (d.serve cfg) (.idle c) (.idle (d.read cfg c r).1) := by
  have hpread : ∀ n pos buff, d.pread r.path n pos = some buff → buff.length ≤ n := by
    intro n pos buff hbuff
    rw [← Option.some.inj hbuff]
    exact List.length_take_le _ _
  have hstart : d.serve cfg (.idle c) (.read r) =
      some (.reading r (turns cfg (d.content r.path).length r) (.start cfg c r)) := by
    rw [Disk.serve, Disk.event, CachingFs.serve]
  rw [Disk.read, fst_cachingRead]
  exact ((Run.Reaches.refl _).tail hstart).trans
    (reaches_readLoop hpread (fun _ ↦ .turn) (fun _ _ ↦ rfl) _ _)

/-- A sequence of successful calls is a run of the machine. -/
theorem Disk.reaches_of_step {c' : Cache} (h : Run.Reaches (d.step cfg) c c') :
    Run.Reaches (d.serve cfg) (.idle c) (.idle c') := by
  refine h.simulate fun c r c' hstep ↦ ?_
  rw [Disk.step] at hstep
  split_ifs at hstep
  exact Option.some.inj hstep ▸ d.reaches_read cfg c r

end CachingFs
