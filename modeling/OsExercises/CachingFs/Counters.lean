import OsExercises.CachingFs.Turns
import OsExercises.ForMathlib.Lfu

/-!
# The counters

The slots of the cache against a least-frequently-used cache that is told which blocks are used, and
which paths are changed.

* `Access` is what a step does to the slots, and a state of `tracedStep` records all of them.
* `Counted` says that the counters are the numbers of uses since the slot was loaded, and zero in
  the empty slots only.
* `Changes` says which slots a step changes, and how.
* `reference` is the other cache.  `lfu_iff`: the slots are those of the other cache as long as the
  numbers of the blocks that are loaded fit into an `int`, to which `updateBlock` converts them.
-/

set_option autoImplicit false

namespace CachingFs

open CLib

variable {cfg : Config} {c c' : Cache} {r : Read} {l : Locals} {n i : ℕ} {b : CacheBlock}

/-! ## Accesses -/

/-- What a slot is filed under. -/
abbrev Key := Path × ℤ

/-- What a step does to the slots: a block is found in a slot, or is loaded into one, or the slots
of a path get another one. -/
inductive Access
  | hit (key : Key) (i : ℕ)
  | load (key : Key) (i : ℕ)
  | rename (path newpath : Path)
  deriving DecidableEq, Repr

/-- The access of a turn. -/
def Locals.access (cfg : Config) (r : Read) (l : Locals) (res : Option (List UInt8)) :
    Option Access :=
  match isInCache l.cache r.path (l.number cfg r + 1) with
  | some i => some (.hit (r.path, l.number cfg r + 1) i)
  | none =>
    match res with
    | some (_ :: _) => some (.load (r.path, l.number cfg r + 1) (searchMinCounter l.cache))
    | some [] | none => none

/-- The access of a step. -/
def Serving.access (cfg : Config) : Serving → Event → Option Access
  | .idle _, .rename e => if e.error = none then some (.rename e.path e.newpath) else none
  | .reading r (_ + 1) l, .turn res => if l.finish then none else l.access cfg r res
  | _, _ => none

/-- A step of the machine, with all the accesses so far. -/
def tracedStep (cfg : Config) (s : Serving × List Access) (e : Event) :
    Option (Serving × List Access) :=
  (serve cfg s.1 e).map fun t ↦ (t, s.2 ++ (s.1.access cfg e).toList)

/-- The machine after `caching_init`. -/
def tracedInit (cfg : Config) : Serving × List Access := (.idle (cachingInit cfg), [])

/-- How often a slot was used since something was loaded into it, the use at that time included. -/
def usesSinceLoad (log : List Access) (i : ℕ) : ℕ :=
  log.foldl (fun n a ↦ match a with
    | .hit _ j => if j = i then n + 1 else n
    | .load _ j => if j = i then 1 else n
    | .rename .. => n) 0

/-- The access in the other cache. -/
def Access.refer : Access → List (Lfu.Slot Key) → List (Lfu.Slot Key)
  | .hit key _ => Lfu.access key
  | .load key _ => Lfu.access key
  | .rename path newpath => Lfu.rekey fun k ↦ if k.1 = path then (newpath, k.2) else k

/-- **The reference**: a least-frequently-used cache after the same accesses. -/
def reference (cfg : Config) (log : List Access) : List (Lfu.Slot Key) :=
  log.foldl (fun s a ↦ a.refer s) (List.replicate cfg.numOfBlocks none)

/-- What a slot is filed under, and its counter. -/
def slotOf (b : CacheBlock) : Lfu.Slot Key := b.path.map fun p ↦ ((p, b.blockEnumerator), b.counter)

/-- The contents of the slots. -/
def slots (c : Cache) : List (Lfu.Slot Key) := c.map slotOf

/-! ## The properties -/

/-- No counter has reached the largest `int`. -/
def BelowMax (c : Cache) : Prop := ∀ b ∈ c, b.counter < 2 ^ 31 - 1

instance (c : Cache) : Decidable (BelowMax c) := inferInstanceAs (Decidable (∀ b ∈ c, _))

/-- The counters are the numbers of uses, and zero in the empty slots only. -/
structure Counted (c : Cache) (log : List Access) : Prop where
  /-- The numbers of uses. -/
  uses : ∀ i b, getElem? c i = some b → b.counter = usesSinceLoad log i
  /-- Zero in the empty slots only. -/
  empty : ∀ b ∈ c, b.counter = 0 ↔ b.path = none

/-- The slot with this index has the key, and only its counter changes, by one. -/
def Uses (c c' : Cache) (key : Key) (i : ℕ) : Prop :=
  (∃ b, getElem? c i = some b ∧ b.path = some key.1 ∧ b.blockEnumerator = key.2 ∧
      getElem? c' i = some { b with counter := b.counter + 1 }) ∧
    ∀ j ≠ i, getElem? c' j = getElem? c j

/-- No slot has the key, and the first slot with the least counter is replaced, an empty one if
there is any; no other slot changes. -/
structure Replaces (c c' : Cache) (key : Key) (i : ℕ) : Prop where
  /-- No slot has the key. -/
  miss : ∀ b ∈ c, b.path = some key.1 → b.blockEnumerator ≠ key.2
  /-- The counter is least, and those before are greater. -/
  least : ∃ b, getElem? c i = some b ∧ (∀ b' ∈ c, b.counter ≤ b'.counter) ∧
    ∀ j < i, ∀ b', getElem? c j = some b' → b.counter < b'.counter
  /-- No filled slot is replaced while there is an empty one. -/
  empty : (∃ b ∈ c, b.path = none) → ∃ b, getElem? c i = some b ∧ b.path = none
  /-- The slot has the path afterwards, and was used once. -/
  loaded : ∃ b, getElem? c' i = some b ∧ b.path = some key.1 ∧ b.counter = 1
  /-- The others are what they were. -/
  frame : ∀ j ≠ i, getElem? c' j = getElem? c j

/-- What an access changes.  A turn that reads nothing has none, and changes nothing. -/
def Changes (c c' : Cache) : Option Access → Prop
  | none => c' = c
  | some (.hit key i) => Uses c c' key i
  | some (.load key i) => Replaces c c' key i
  | some (.rename path newpath) =>
    c' = c.map fun b ↦ if b.path = some path then { b with path := some newpath } else b

/-- The number of a block that is loaded fits into an `int`. -/
def NumberFits (cfg : Config) (s : Serving) (e : Event) : Prop :=
  ∀ key i, s.access cfg e = some (.load key i) → key.2 < 2 ^ 31

/-! ## The slot with the least counter -/

theorem searchMinCounterFrom_spec (k m j : ℕ) (c : Cache) :
    (searchMinCounterFrom k m j c = j ∧ ∀ b ∈ c, m ≤ b.counter) ∨
      ∃ i b, searchMinCounterFrom k m j c = k + i ∧ getElem? c i = some b ∧ b.counter < m ∧
        (∀ b' ∈ c, b.counter ≤ b'.counter) ∧
          ∀ u < i, ∀ b', getElem? c u = some b' → b.counter < b'.counter := by
  induction c generalizing k m j with
  | nil => exact .inl ⟨rfl, by simp⟩
  | cons b₀ c ih =>
    rw [searchMinCounterFrom]
    by_cases hlt : b₀.counter < m
    · rw [if_pos hlt]
      rcases ih (k + 1) b₀.counter k with ⟨heq, hle⟩ | ⟨i, b, heq, hb, hless, hle, hbefore⟩
      · exact .inr ⟨0, b₀, heq, rfl, hlt, List.forall_mem_cons.mpr ⟨Nat.le_refl _, hle⟩,
          fun u hu ↦ absurd hu (Nat.not_lt_zero u)⟩
      · refine .inr ⟨i + 1, b, by omega, hb, by omega,
          List.forall_mem_cons.mpr ⟨hless.le, hle⟩, fun u hu b' hb' ↦ ?_⟩
        cases u with
        | zero => exact Option.some.inj hb' ▸ hless
        | succ u => exact hbefore u (by omega) b' hb'
    · rw [if_neg hlt]
      rcases ih (k + 1) m j with ⟨heq, hle⟩ | ⟨i, b, heq, hb, hless, hle, hbefore⟩
      · exact .inl ⟨heq, List.forall_mem_cons.mpr ⟨by omega, hle⟩⟩
      · refine .inr ⟨i + 1, b, by omega, hb, hless,
          List.forall_mem_cons.mpr ⟨by omega, hle⟩, fun u hu b' hb' ↦ ?_⟩
        cases u with
        | zero =>
          have heq : b₀ = b' := Option.some.inj hb'
          rw [← heq]
          omega
        | succ u => exact hbefore u (by omega) b' hb'

/-- **The least counter**, and the first of them. -/
theorem searchMinCounter_spec (hmax : BelowMax c) (hlen : 0 < c.length) :
    ∃ b, getElem? c (searchMinCounter c) = some b ∧ (∀ b' ∈ c, b.counter ≤ b'.counter) ∧
      ∀ j < searchMinCounter c, ∀ b', getElem? c j = some b' → b.counter < b'.counter := by
  obtain ⟨b₀, hb₀⟩ := List.exists_mem_of_length_pos hlen
  rcases searchMinCounterFrom_spec 0 (2 ^ 31 - 1) 0 c with
    ⟨-, hle⟩ | ⟨i, b, heq, hb, -, hle, hbefore⟩
  · exact absurd (hmax b₀ hb₀) (Nat.not_lt.mpr (hle b₀ hb₀))
  · have hi : searchMinCounter c = i := heq.trans (Nat.zero_add i)
    rw [hi]
    exact ⟨b, hb, hle, hbefore⟩

/-! ## The access of each step -/

section

variable {res : Option (List UInt8)} {buff : List UInt8}

theorem access_done (hfin : n = 0 ∨ l.finish = true) :
    (Serving.reading r n l).access cfg (.turn res) = none := by
  match n, hfin with
  | 0, _ => rfl
  | n + 1, hfin => exact if_pos (hfin.resolve_left (Nat.succ_ne_zero n))

theorem access_turn (hfin : l.finish = false) :
    (Serving.reading r (n + 1) l).access cfg (.turn res) = l.access cfg r res :=
  if_neg (by simp [hfin])

theorem access_hit (hi : isInCache l.cache r.path (l.number cfg r + 1) = some i) :
    l.access cfg r res = some (.hit (r.path, l.number cfg r + 1) i) := by
  simp only [Locals.access, hi]

theorem access_nothing (hi : isInCache l.cache r.path (l.number cfg r + 1) = none)
    (hres : res = none ∨ res = some []) : l.access cfg r res = none := by
  rcases hres with rfl | rfl <;> simp only [Locals.access, hi]

theorem access_load (hi : isInCache l.cache r.path (l.number cfg r + 1) = none) (hne : buff ≠ []) :
    l.access cfg r (some buff) =
      some (.load (r.path, l.number cfg r + 1) (searchMinCounter l.cache)) := by
  obtain ⟨b, buff, rfl⟩ := List.exists_cons_of_ne_nil hne
  simp only [Locals.access, hi]

theorem access_rename (c : Cache) (e : Rename) : (Serving.idle c).access cfg (.rename e) =
    if e.error = none then some (.rename e.path e.newpath) else none := by
  rw [Serving.access]

end

/-! ## The counters -/

theorem usesSinceLoad_hit (log : List Access) (key : Key) (i j : ℕ) :
    usesSinceLoad (log ++ [.hit key i]) j =
      if i = j then usesSinceLoad log j + 1 else usesSinceLoad log j := by
  rw [usesSinceLoad, List.foldl_append, List.foldl_cons, List.foldl_nil, ← usesSinceLoad]

theorem usesSinceLoad_load (log : List Access) (key : Key) (i j : ℕ) :
    usesSinceLoad (log ++ [.load key i]) j = if i = j then 1 else usesSinceLoad log j := by
  rw [usesSinceLoad, List.foldl_append, List.foldl_cons, List.foldl_nil, ← usesSinceLoad]

theorem usesSinceLoad_rename (log : List Access) (path newpath : Path) (j : ℕ) :
    usesSinceLoad (log ++ [.rename path newpath]) j = usesSinceLoad log j := by
  rw [usesSinceLoad, List.foldl_append, List.foldl_cons, List.foldl_nil, ← usesSinceLoad]

theorem counted_cachingInit (cfg : Config) : Counted (cachingInit cfg) [] := by
  refine ⟨fun i b hb ↦ ?_, fun b hb ↦ ?_⟩
  · rw [eq_of_mem_cachingInit (List.mem_of_getElem? hb)]
    rfl
  · simp [eq_of_mem_cachingInit hb]

/-- A hit is counted. -/
theorem Counted.hit {log : List Access} (h : Counted c log) {path : Path} {k : ℤ}
    (hi : isInCache c path k = some i) (key : Key) :
    Counted (c.modify i CacheBlock.increaseCount) (log ++ [.hit key i]) := by
  obtain ⟨b₀, -, hget, hpath, -⟩ := exists_of_isInCache hi
  refine ⟨fun j b hb ↦ ?_, fun b hb ↦ ?_⟩
  · rw [usesSinceLoad_hit]
    rw [List.getElem?_modify] at hb
    obtain ⟨b₁, hb₁, rfl⟩ := Option.map_eq_some_iff.mp hb
    by_cases hij : i = j
    · rw [if_pos hij, if_pos hij, ← h.uses j b₁ hb₁, CacheBlock.increaseCount]
    · rw [if_neg hij, if_neg hij, ← h.uses j b₁ hb₁]
  · obtain ⟨j, hj⟩ := List.mem_iff_getElem?.mp hb
    rw [List.getElem?_modify] at hj
    obtain ⟨b₁, hb₁, rfl⟩ := Option.map_eq_some_iff.mp hj
    by_cases hij : i = j
    · obtain rfl : b₀ = b₁ := by
        rw [hij, hb₁] at hget
        exact (Option.some.inj hget).symm
      rw [if_pos hij]
      simp [CacheBlock.increaseCount, hpath]
    · rw [if_neg hij]
      exact h.empty b₁ (List.mem_of_getElem? hb₁)

/-- A load starts counting again. -/
theorem Counted.load {log : List Access} (h : Counted l.cache log) (buff : List UInt8)
    (key : Key) : Counted (l.put cfg r buff).cache
      (log ++ [.load key (searchMinCounter l.cache)]) := by
  refine ⟨fun j b hb ↦ ?_, fun b hb ↦ ?_⟩
  · rw [usesSinceLoad_load]
    rw [cache_put, List.getElem?_modify] at hb
    obtain ⟨b₁, hb₁, rfl⟩ := Option.map_eq_some_iff.mp hb
    by_cases hij : searchMinCounter l.cache = j
    · rw [if_pos hij, if_pos hij, counter_loadedSlot]
    · rw [if_neg hij, if_neg hij, ← h.uses j b₁ hb₁]
  · rcases mem_cache_put hb with hb | rfl
    · exact h.empty b hb
    · simp

/-- Renaming changes no counter. -/
theorem Counted.rename {log : List Access} (h : Counted c log) (path newpath : Path) :
    Counted (c.map fun b ↦ if b.path = some path then b.setPath newpath else b)
      (log ++ [.rename path newpath]) := by
  refine ⟨fun j b hb ↦ ?_, fun b hb ↦ ?_⟩
  · rw [List.getElem?_map] at hb
    obtain ⟨b₁, hb₁, rfl⟩ := Option.map_eq_some_iff.mp hb
    rw [usesSinceLoad_rename, ← h.uses j b₁ hb₁]
    split <;> rfl
  · obtain ⟨b₁, hb₁, rfl⟩ := List.mem_map.mp hb
    have hempty := h.empty b₁ hb₁
    split <;> simp_all [CacheBlock.setPath]

/-- **The counters stay the numbers of uses.** -/
theorem Counted.serve {s t : Serving} {e : Event} {log : List Access} (hs : Counted s.cache log)
    (h : serve cfg s e = some t) : Counted t.cache (log ++ (s.access cfg e).toList) := by
  have hnone : Counted s.cache (log ++ (none : Option Access).toList) := by simpa using hs
  rcases served_of_serve h with ⟨c, r, stSize⟩ | ⟨c, e⟩ | ⟨r, n, l, res, hfin⟩ |
    ⟨r, n, l, res, i, hfin, hi⟩ | ⟨r, n, l, res, hfin, hi, hres⟩ | ⟨r, n, l, buff, hfin, hi, hne, -⟩
  · exact hnone
  · rw [access_rename]
    match herr : e.error with
    | none => exact hs.rename e.path e.newpath
    | some _ => exact hnone
  · rw [access_done hfin]
    exact hnone
  · rw [access_turn hfin, access_hit hi]
    exact hs.hit hi _
  · rw [access_turn hfin, access_nothing hi hres]
    exact hnone
  · rw [access_turn hfin, access_load hi hne]
    exact hs.load buff _

/-! ## The slots and the other cache -/

theorem slotOf_eq_none : slotOf b = none ↔ b.path = none := Option.map_eq_none_iff

theorem uses_slotOf (h : b.counter = 0 ↔ b.path = none) : Lfu.uses (slotOf b) = b.counter := by
  match hpath : b.path with
  | none =>
    rw [slotOf, hpath, h.mpr hpath]
    rfl
  | some p =>
    rw [slotOf, hpath]
    rfl

/-- The same slot is found. -/
theorem find_slots (c : Cache) (key : Key) :
    Lfu.find key (slots c) = isInCache c key.1 key.2 := by
  rw [Lfu.find, slots, List.findIdx?_map, isInCache]
  congr 1
  funext b
  cases hpath : b.path with
  | none => simp [slotOf, hpath]
  | some p => simp [slotOf, hpath, Prod.ext_iff]

/-- The same slot is replaced. -/
theorem victim_slots (hmax : BelowMax c) (hlen : 0 < c.length)
    (hempty : ∀ b ∈ c, b.counter = 0 ↔ b.path = none) :
    Lfu.victim (slots c) = searchMinCounter c := by
  obtain ⟨b, hb, hle, hbefore⟩ := searchMinCounter_spec hmax hlen
  have huses := fun b hb ↦ uses_slotOf (hempty b hb)
  have hmem := List.mem_of_getElem? hb
  refine Lfu.victim_eq (x := slotOf b) (by rw [slots, List.getElem?_map, hb]; rfl) ?_ ?_
  · intro y hy
    obtain ⟨b', hb', rfl⟩ := List.mem_map.mp hy
    rw [huses b hmem, huses b' hb']
    exact hle b' hb'
  · intro j hj y hy
    rw [slots, List.getElem?_map] at hy
    obtain ⟨b', hb', rfl⟩ := Option.map_eq_some_iff.mp hy
    rw [huses b hmem, huses b' (List.mem_of_getElem? hb')]
    exact hbefore j hj b' hb'

theorem slots_use (c : Cache) (i : ℕ) :
    slots (c.modify i CacheBlock.increaseCount) = (slots c).modify i Lfu.useSlot := by
  refine List.ext_getElem? fun j ↦ ?_
  rw [slots, slots, List.getElem?_map, List.getElem?_modify, List.getElem?_modify,
    List.getElem?_map]
  match getElem? c j with
  | none => rfl
  | some b =>
    have hslot : slotOf b.increaseCount = Lfu.useSlot (slotOf b) := by
      rw [slotOf, slotOf, Lfu.useSlot, Option.map_map]
      rfl
    by_cases hij : i = j <;> simp [hij, hslot]

theorem slots_put (l : Locals) (buff : List UInt8) :
    slots (l.put cfg r buff).cache = (slots l.cache).set (searchMinCounter l.cache)
      (some ((r.path, toInt32 (l.number cfg r + 1)), 1)) := by
  have hslot : slotOf (loadedSlot cfg r l buff) =
      some ((r.path, toInt32 (l.number cfg r + 1)), 1) := by
    rw [slotOf, path_loadedSlot, blockEnumerator_loadedSlot, counter_loadedSlot]
    rfl
  rw [cache_put, slots, slots, ← List.set_eq_modify, List.map_set, hslot]

theorem slots_rename (path newpath : Path) (c : Cache) :
    slots (c.map fun b ↦ if b.path = some path then b.setPath newpath else b) =
      Lfu.rekey (fun k ↦ if k.1 = path then (newpath, k.2) else k) (slots c) := by
  rw [slots, slots, Lfu.rekey, List.map_map, List.map_map]
  refine List.map_congr_left fun b _ ↦ ?_
  rw [Function.comp_apply, Function.comp_apply, slotOf, slotOf]
  match hpath : b.path with
  | none => simp [hpath]
  | some p => by_cases hp : p = path <;> simp [hpath, hp, CacheBlock.setPath]

/-! ## What a step changes -/

/-- While there is an empty slot, an empty one is replaced. -/
theorem exists_empty (hmax : BelowMax c) (hempty : ∀ b ∈ c, b.counter = 0 ↔ b.path = none)
    (h : ∃ b ∈ c, b.path = none) :
    ∃ b, getElem? c (searchMinCounter c) = some b ∧ b.path = none := by
  obtain ⟨b₀, hb₀, hnone⟩ := h
  have hpos : ∀ k n, some (k, n) ∈ slots c → 0 < n := by
    intro k n hkn
    obtain ⟨b, hb, hslot⟩ := List.mem_map.mp hkn
    obtain ⟨p, hpath, heq⟩ := Option.map_eq_some_iff.mp hslot
    obtain rfl : b.counter = n := congrArg Prod.snd heq
    have hne : b.counter ≠ 0 := fun hzero ↦ by simp [(hempty b hb).mp hzero] at hpath
    exact Nat.pos_of_ne_zero hne
  have hmem : none ∈ slots c := List.mem_map.mpr ⟨b₀, hb₀, slotOf_eq_none.mpr hnone⟩
  have hvictim := Lfu.victim_empty hpos hmem
  rw [victim_slots hmax (List.length_pos_of_mem hb₀) hempty, slots, List.getElem?_map] at hvictim
  obtain ⟨b, hb, hslot⟩ := Option.map_eq_some_iff.mp hvictim
  exact ⟨b, hb, slotOf_eq_none.mp hslot⟩

/-- A load replaces the slot that was used least. -/
theorem replaces_put (hlen : 0 < l.cache.length) (hmax : BelowMax l.cache)
    (hempty : ∀ b ∈ l.cache, b.counter = 0 ↔ b.path = none)
    (hi : isInCache l.cache r.path (l.number cfg r + 1) = none) (buff : List UInt8) :
    Replaces l.cache (l.put cfg r buff).cache (r.path, l.number cfg r + 1)
      (searchMinCounter l.cache) where
  miss := isInCache_eq_none.mp hi
  least := searchMinCounter_spec hmax hlen
  empty := exists_empty hmax hempty
  loaded := by
    refine ⟨loadedSlot cfg r l buff, ?_, path_loadedSlot buff, counter_loadedSlot buff⟩
    rw [cache_put, List.getElem?_modify_eq, List.getElem?_eq_getElem (searchMinCounter_lt hlen)]
    rfl
  frame := fun j hj ↦ by rw [cache_put, List.getElem?_modify_ne _ _ (Ne.symm hj)]

/-- **What a step changes** is what its access says. -/
theorem changes_of_serve {s t : Serving} {e : Event} (hready : s.Ready cfg)
    (hmax : BelowMax s.cache) (hempty : ∀ b ∈ s.cache, b.counter = 0 ↔ b.path = none)
    (h : serve cfg s e = some t) : Changes s.cache t.cache (s.access cfg e) := by
  rcases served_of_serve h with ⟨c, r, stSize⟩ | ⟨c, e⟩ | ⟨r, n, l, res, hfin⟩ |
    ⟨r, n, l, res, i, hfin, hi⟩ | ⟨r, n, l, res, hfin, hi, hres⟩ | ⟨r, n, l, buff, hfin, hi, hne, -⟩
  · rfl
  · rw [access_rename]
    match herr : e.error with
    | none => rfl
    | some _ => rfl
  · rw [access_done hfin]
    rfl
  · rw [access_turn hfin, access_hit hi]
    obtain ⟨b, -, hb, hpath, hnum⟩ := exists_of_isInCache hi
    refine ⟨⟨b, hb, hpath, hnum, ?_⟩, fun j hj ↦ List.getElem?_modify_ne _ _ (Ne.symm hj)⟩
    exact (List.getElem?_modify_eq ..).trans (congrArg _ hb)
  · rw [access_turn hfin, access_nothing hi hres]
    rfl
  · rw [access_turn hfin, access_load hi hne]
    exact replaces_put (hready.1 ▸ cfg.numOfBlocks_pos) hmax hempty hi buff

/-! ## The other cache -/

theorem reference_concat (cfg : Config) (log : List Access) (a : Access) :
    reference cfg (log ++ [a]) = a.refer (reference cfg log) := by
  rw [reference, List.foldl_append, List.foldl_cons, List.foldl_nil, ← reference]

theorem toInt32_eq_self_iff (k : ℕ) : toInt32 (k + 1) = k + 1 ↔ (k : ℤ) + 1 < 2 ^ 31 := by
  obtain ⟨m, hm, hlo, hhi⟩ := toInt32_spec (k + 1)
  omega

/-- The slots stay those of the other cache when the number of a loaded block fits. -/
theorem slots_put_eq_iff {log : List Access} (hlen : 0 < l.cache.length) (hmax : BelowMax l.cache)
    (hempty : ∀ b ∈ l.cache, b.counter = 0 ↔ b.path = none)
    (hs : slots l.cache = reference cfg log)
    (hi : isInCache l.cache r.path (l.number cfg r + 1) = none) (buff : List UInt8) :
    slots (l.put cfg r buff).cache = reference cfg
        (log ++ [.load (r.path, l.number cfg r + 1) (searchMinCounter l.cache)]) ↔
      (l.number cfg r : ℤ) + 1 < 2 ^ 31 := by
  have hfind : Lfu.find (r.path, (l.number cfg r : ℤ) + 1) (slots l.cache) = none := by
    rw [find_slots, hi]
  have hlt : searchMinCounter l.cache < (slots l.cache).length := by
    rw [slots, List.length_map]
    exact searchMinCounter_lt hlen
  rw [reference_concat, ← hs, Access.refer, Lfu.access_of_find_none hfind,
    victim_slots hmax hlen hempty, slots_put, ← toInt32_eq_self_iff]
  constructor
  · intro h
    have hget := congrArg (fun s : List (Lfu.Slot Key) ↦ s[searchMinCounter l.cache]?) h
    simp only [List.getElem?_set_self hlt, Option.some.injEq, Prod.mk.injEq, true_and,
      and_true] at hget
    exact hget
  · intro h
    rw [h]

/-- **A step keeps the slots those of the other cache** exactly if it loads no block whose number
does not fit. -/
theorem slots_eq_iff {s t : Serving} {e : Event} {log : List Access} (hready : s.Ready cfg)
    (hmax : BelowMax s.cache) (hempty : ∀ b ∈ s.cache, b.counter = 0 ↔ b.path = none)
    (hs : slots s.cache = reference cfg log) (h : serve cfg s e = some t) :
    slots t.cache = reference cfg (log ++ (s.access cfg e).toList) ↔ NumberFits cfg s e := by
  have hnone : slots s.cache = reference cfg (log ++ (none : Option Access).toList) := by
    simpa using hs
  rcases served_of_serve h with ⟨c, r, stSize⟩ | ⟨c, e⟩ | ⟨r, n, l, res, hfin⟩ |
    ⟨r, n, l, res, i, hfin, hi⟩ | ⟨r, n, l, res, hfin, hi, hres⟩ | ⟨r, n, l, buff, hfin, hi, hne, -⟩
  · exact iff_of_true hnone fun _ _ h ↦ nomatch h
  · rw [NumberFits, access_rename]
    match herr : e.error with
    | none =>
      refine iff_of_true ?_ fun _ _ h ↦ nomatch h
      rw [if_pos rfl, Option.toList_some, reference_concat, ← hs, Access.refer, ← slots_rename]
      rfl
    | some _ => exact iff_of_true hnone fun _ _ h ↦ nomatch h
  · rw [NumberFits, access_done hfin]
    exact iff_of_true hnone fun _ _ h ↦ nomatch h
  · have hfind := (find_slots l.cache (r.path, (l.number cfg r : ℤ) + 1)).trans hi
    rw [NumberFits, access_turn hfin, access_hit hi]
    refine iff_of_true ?_ fun _ _ h ↦ nomatch h
    rw [Option.toList_some, reference_concat, ← hs, Access.refer]
    exact (slots_use l.cache i).trans (Lfu.access_of_find hfind).symm
  · rw [NumberFits, access_turn hfin, access_nothing hi hres]
    exact iff_of_true hnone fun _ _ h ↦ nomatch h
  · rw [NumberFits, access_turn hfin, access_load hi hne, Option.toList_some]
    refine (slots_put_eq_iff (hready.1 ▸ cfg.numOfBlocks_pos) hmax hempty hs hi buff).trans ?_
    constructor
    · rintro hlt key i ⟨⟩
      exact hlt
    · intro hfits
      exact hfits (r.path, (l.number cfg r : ℤ) + 1) (searchMinCounter l.cache) rfl

/-! ## Runs -/

theorem tracedStep_eq_some {s t : Serving × List Access} {e : Event} :
    tracedStep cfg s e = some t ↔
      serve cfg s.1 e = some t.1 ∧ t.2 = s.2 ++ (s.1.access cfg e).toList := by
  rw [tracedStep, Option.map_eq_some_iff]
  constructor
  · rintro ⟨t', ht', rfl⟩
    exact ⟨ht', rfl⟩
  · rintro ⟨ht, hlog⟩
    exact ⟨t.1, ht, Prod.ext rfl hlog.symm⟩

/-- In all states the cache has its slots, and the counters are the numbers of uses. -/
theorem always_counted (cfg : Config) (es : List Event) :
    Run.Always (tracedStep cfg) (fun s ↦ s.1.Ready cfg ∧ Counted s.1.cache s.2)
      (tracedInit cfg) es := by
  refine Run.always_of_invariant ?_ ⟨ready_cachingInit cfg, counted_cachingInit cfg⟩ es
  rintro s e t ⟨hready, hcounted⟩ hstep
  obtain ⟨hserve, hlog⟩ := tracedStep_eq_some.mp hstep
  rw [hlog]
  exact ⟨hready.serve hserve, hcounted.serve hserve⟩

/-- **The cache replaces what was used least**, as long as no counter reaches the largest `int`: its
counters are the numbers of uses, a step changes only the slot that it uses or the first of those
that were used least, and the slots are those of the reference exactly as long as the numbers of the
blocks that are loaded fit into an `int`. -/
theorem lfu_iff (cfg : Config) (es : List Event)
    (hmax : Run.Always (tracedStep cfg) (fun s ↦ BelowMax s.1.cache) (tracedInit cfg) es) :
    Run.Always (tracedStep cfg) (fun s ↦ Counted s.1.cache s.2) (tracedInit cfg) es ∧
      Run.Meets (tracedStep cfg)
        (fun s e ↦ ∀ t, serve cfg s.1 e = some t →
          Changes s.1.cache t.cache (s.1.access cfg e)) (tracedInit cfg) es ∧
      (Run.Always (tracedStep cfg) (fun s ↦ slots s.1.cache = reference cfg s.2)
          (tracedInit cfg) es ↔
        Run.Meets (tracedStep cfg) (fun s e ↦ NumberFits cfg s.1 e) (tracedInit cfg) es) := by
  have hall := (always_counted cfg es).and hmax
  refine ⟨(always_counted cfg es).imp fun _ h ↦ h.2, hall.meets ?_, hall.iff_meets ?_ ?_⟩
  · rintro s e - ⟨⟨hready, hcounted⟩, hbelow⟩ - t hserve
    exact changes_of_serve hready hbelow hcounted.empty hserve
  · rintro s e t ⟨⟨hready, hcounted⟩, hbelow⟩ hs hstep
    obtain ⟨hserve, hlog⟩ := tracedStep_eq_some.mp hstep
    rw [hlog]
    exact slots_eq_iff hready hbelow hcounted.empty hs hserve
  · exact List.map_replicate

/-- Two reads of a file of four bytes, and a new name for it. -/
def sampleEvents : List Event :=
  [.read ⟨[47, 97], 4, 0⟩ 4, .turn (some [97, 98]), .turn (some [99, 100]), .turn (some []),
    .read ⟨[47, 97], 2, 0⟩ 4, .turn none, .turn none, .turn none,
    .rename ⟨[47, 97], [47, 98], none⟩]

theorem lfu_iff_sample :
    Run.Always (tracedStep sampleConfig) (fun s ↦ Counted s.1.cache s.2)
        (tracedInit sampleConfig) sampleEvents ∧
      Run.Meets (tracedStep sampleConfig)
        (fun s e ↦ ∀ t, serve sampleConfig s.1 e = some t →
          Changes s.1.cache t.cache (s.1.access sampleConfig e))
        (tracedInit sampleConfig) sampleEvents ∧
      (Run.Always (tracedStep sampleConfig)
          (fun s ↦ slots s.1.cache = reference sampleConfig s.2)
          (tracedInit sampleConfig) sampleEvents ↔
        Run.Meets (tracedStep sampleConfig) (fun s e ↦ NumberFits sampleConfig s.1 e)
          (tracedInit sampleConfig) sampleEvents) :=
  lfu_iff sampleConfig sampleEvents (by decide)

/-- One byte, at 2 GiB. -/
def farRead : Read := ⟨[47, 97], 1, 2 ^ 31⟩

/-- It is read twice. -/
def farEvents : List Event :=
  [.read farRead (2 ^ 31 + 1), .turn (some [97]), .turn (some []),
    .read farRead (2 ^ 31 + 1), .turn (some [97]), .turn (some [])]

/-- With blocks of one byte, the byte at 2 GiB is loaded into two slots. -/
theorem exists_not_lfu :
    ¬∀ (cfg : Config) (es : List Event) (s : Serving × List Access),
      Run.Always (tracedStep cfg) (fun s ↦ BelowMax s.1.cache) (tracedInit cfg) es →
        Run.exec (tracedStep cfg) (tracedInit cfg) es = some s →
          slots s.1.cache = reference cfg s.2 := by
  intro h
  have hany : (Run.exec (tracedStep ⟨1, 2, by decide, by decide⟩)
      (tracedInit ⟨1, 2, by decide, by decide⟩) farEvents).any (fun s ↦
        slots s.1.cache ≠ reference ⟨1, 2, by decide, by decide⟩ s.2) = true := by decide
  obtain ⟨s, hs, hne⟩ := (Option.any_eq_true _ _).mp hany
  exact of_decide_eq_true hne (h _ _ s (by decide) hs)

end CachingFs
