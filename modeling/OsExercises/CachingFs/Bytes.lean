import OsExercises.CachingFs.Counters

/-!
# The bytes of a block

What `pread` delivers for a block goes through a buffer with a NUL behind it, `strcpy` into a slot,
`append` of the C string in the slot, and `strcpy` to the caller.

* A `Ledger` is a state of the machine, with what `pread` delivered for the block in each slot, and
  with what was delivered and what was appended at each use of a block so far.
* `Ledger.Stored` is what is always so: a slot holds what was delivered up to the first NUL, and an
  answer has no NUL, so that the last `strcpy` copies all of it.
* `survive_iff`: every block is appended as it was delivered exactly as long as no NUL is delivered.
-/

set_option autoImplicit false

namespace CachingFs

open CLib

variable {cfg : Config} {l : Locals} {r : Read} {i : ℕ}

/-! ## What is delivered and what is appended -/

/-- What `pread` returns in this event. -/
def Event.bytes : Event → List UInt8
  | .turn (some buff) => buff
  | _ => []

/-- What the answer has in the second state and not yet in the first one. -/
def Serving.appended : Serving → Serving → List UInt8
  | .reading _ _ l, .reading _ _ l' => l'.data.drop l.data.length
  | _, _ => []

/-- A state of the machine, with the bytes that were delivered for the blocks. -/
structure Ledger where
  serving : Serving
  /-- What `pread` delivered for the block in each slot. -/
  delivered : List (List UInt8)
  /-- What was delivered and what was appended, for each use of a block. -/
  uses : List (List UInt8 × List UInt8)
  deriving DecidableEq, Repr

/-- After `caching_init`. -/
def Ledger.init (cfg : Config) : Ledger :=
  ⟨.idle (cachingInit cfg), List.replicate cfg.numOfBlocks [], []⟩

/-- The ledger after a step with this access. -/
def Ledger.record (s : Ledger) (e : Event) (t : Serving) : Option Access → Ledger
  | some (.hit _ i) =>
    { s with
      serving := t
      uses := s.uses ++ [(s.delivered[i]?.getD [], s.serving.appended t)] }
  | some (.load _ i) =>
    { serving := t
      delivered := s.delivered.set i e.bytes
      uses := s.uses ++ [(e.bytes, s.serving.appended t)] }
  | some (.rename ..) | none => { s with serving := t }

/-- A step of the machine, with its ledger. -/
def Ledger.step (cfg : Config) (s : Ledger) (e : Event) : Option Ledger :=
  (serve cfg s.serving e).map fun t ↦ s.record e t (s.serving.access cfg e)

/-- All of the answer so far is copied to the caller. -/
def Serving.Copied : Serving → Prop
  | .idle _ => True
  | .reading _ _ l => Answer.of l.data = ⟨l.data, l.data.length⟩

instance : DecidablePred Serving.Copied
  | .idle _ => inferInstanceAs (Decidable True)
  | .reading .. => inferInstanceAs (Decidable (_ = _))

/-- **The bytes survive**: what is appended for a block, at each of its uses, is what `pread` had
delivered for it, and the whole answer is copied. -/
structure Ledger.Survive (s : Ledger) : Prop where
  /-- What is appended is what was delivered. -/
  appended : ∀ u ∈ s.uses, u.2 = u.1
  /-- What is copied is what was appended. -/
  copied : s.serving.Copied

instance : DecidablePred Ledger.Survive := fun s ↦
  decidable_of_iff ((∀ u ∈ s.uses, u.2 = u.1) ∧ s.serving.Copied)
    ⟨fun h ↦ ⟨h.1, h.2⟩, fun h ↦ ⟨h.1, h.2⟩⟩

/-- There is no NUL in the bytes that are delivered for a missing block. -/
def NulFree (cfg : Config) (s : Ledger) (e : Event) : Prop :=
  ∀ key i, s.serving.access cfg e = some (.load key i) → 0 ∉ e.bytes

/-! ## The data in the slots -/

/-- The data of the slots. -/
def contents (c : Cache) : List (List UInt8) := c.map CacheBlock.data

theorem contents_use (c : Cache) (i : ℕ) :
    contents (c.modify i CacheBlock.increaseCount) = contents c := by
  rw [contents, contents]
  refine List.ext_getElem? fun j ↦ ?_
  rw [List.getElem?_map, List.getElem?_map, List.getElem?_modify, Option.map_eq_map,
    Option.map_map]
  congr 1
  funext b
  by_cases hij : i = j
  · rw [Function.comp_apply, if_pos hij, CacheBlock.increaseCount]
  · rw [Function.comp_apply, if_neg hij]

theorem contents_put (l : Locals) (buff : List UInt8) :
    contents (l.put cfg r buff).cache =
      (contents l.cache).set (searchMinCounter l.cache) (cString buff) := by
  rw [cache_put, contents, contents, ← List.set_eq_modify, List.map_set, data_loadedSlot]

theorem contents_cachingRename (error : Option ℕ) (path newpath : Path) (c : Cache) :
    contents (cachingRename error path newpath c).2 = contents c := by
  match error with
  | some _ => rfl
  | none =>
    rw [cachingRename, contents, contents, List.map_map]
    refine List.map_congr_left fun b _ ↦ ?_
    rw [Function.comp_apply]
    split <;> rfl

theorem data_put (hlen : 0 < l.cache.length) (buff : List UInt8) :
    (l.put cfg r buff).data = l.data ++ cString buff := by
  have hi := searchMinCounter_lt hlen
  simp [Locals.put, Locals.use, Locals.load, hi, updateBlock]

theorem data_use (l : Locals) (i : ℕ) :
    (l.use i).data = l.data ++ (getElem? (contents l.cache) i).getD [] := by
  rw [Locals.use, contents, List.getElem?_map]

theorem copied_iff {n : ℕ} : (Serving.reading r n l).Copied ↔ 0 ∉ l.data := by
  rw [← cString_eq_self_iff, Serving.Copied, Answer.of, Answer.mk.injEq]
  exact and_iff_left rfl

/-! ## Steps -/

/-- **The ledger is right**: a slot holds what was delivered for its block up to the first NUL, and
the answer has no NUL. -/
structure Ledger.Stored (cfg : Config) (s : Ledger) : Prop where
  ready : s.serving.Ready cfg
  /-- The C strings in the slots. -/
  slots : contents s.serving.cache = s.delivered.map cString
  copied : s.serving.Copied

/-- What a step enters into the ledger. -/
inductive Entered (cfg : Config) (s : Ledger) (e : Event) (t : Ledger) : Prop
  | none (hno : ∀ key i, s.serving.access cfg e ≠ some (.load key i))
    (hdelivered : t.delivered = s.delivered) (huses : t.uses = s.uses)
  | hit (hno : ∀ key i, s.serving.access cfg e ≠ some (.load key i)) (d : List UInt8)
    (hd : d ∈ s.delivered) (hdelivered : t.delivered = s.delivered)
    (huses : t.uses = s.uses ++ [(d, cString d)])
  | load (key : Key) (i : ℕ) (haccess : s.serving.access cfg e = some (.load key i))
    (hdelivered : t.delivered = s.delivered.set i e.bytes)
    (huses : t.uses = s.uses ++ [(e.bytes, cString e.bytes)])

theorem appended_use (l : Locals) (i m n : ℕ) :
    (Serving.reading r m l).appended (.reading r n (l.use i)) =
      (getElem? (contents l.cache) i).getD [] := by
  rw [Serving.appended, data_use, List.drop_left]

theorem appended_put (hlen : 0 < l.cache.length) (buff : List UInt8) (m n : ℕ) :
    (Serving.reading r m l).appended (.reading r n (l.put cfg r buff)) = cString buff := by
  rw [Serving.appended, data_put hlen, List.drop_left]

/-- An answer without a NUL stays without one when a C string is appended. -/
theorem Serving.Copied.append {m n : ℕ} {l' : Locals} (h : (Serving.reading r m l).Copied)
    {d : List UInt8} (hdata : l'.data = l.data ++ cString d) :
    (Serving.reading r n l').Copied := by
  rw [copied_iff] at h ⊢
  rw [hdata, List.mem_append]
  exact not_or.mpr ⟨h, zero_notMem_cString d⟩

/-- A block that is found was delivered. -/
theorem exists_delivered {delivered : List (List UInt8)} {c : Cache} {path : Path} {k : ℤ}
    (hslots : contents c = delivered.map cString) (hi : isInCache c path k = some i) :
    ∃ d ∈ delivered, getElem? delivered i = some d ∧
      getElem? (contents c) i = some (cString d) := by
  obtain ⟨b, -, hb, -⟩ := exists_of_isInCache hi
  have hget : getElem? (contents c) i = some b.data := by
    rw [contents, List.getElem?_map, hb, Option.map_some]
  rw [hslots, List.getElem?_map] at hget
  obtain ⟨d, hd, -⟩ := Option.map_eq_some_iff.mp hget
  exact ⟨d, List.mem_of_getElem? hd, hd, by rw [hslots, List.getElem?_map, hd, Option.map_some]⟩

/-- **A step keeps the ledger right**, and says what it enters. -/
theorem Ledger.Stored.step {s t : Ledger} {e : Event} (hs : s.Stored cfg)
    (h : Ledger.step cfg s e = some t) : t.Stored cfg ∧ Entered cfg s e t := by
  obtain ⟨s, delivered, uses⟩ := s
  obtain ⟨hready, hslots, hcopied⟩ := hs
  obtain ⟨t, hserve, rfl⟩ := Option.map_eq_some_iff.mp h
  have hready' := hready.serve hserve
  rcases served_of_serve hserve with ⟨c, r, stSize⟩ | ⟨c, e⟩ | ⟨r, n, l, res, hfin⟩ |
    ⟨r, n, l, res, i, hfin, hi⟩ | ⟨r, n, l, res, hfin, hi, hres⟩ | ⟨r, n, l, buff, hfin, hi, hne, -⟩
  · exact ⟨⟨hready', hslots, rfl⟩, .none (fun _ _ h ↦ nomatch h) rfl rfl⟩
  · have hno : ∀ key i, (Serving.idle c).access cfg (.rename e) ≠ some (.load key i) := by
      intro key i h
      rw [access_rename] at h
      split at h <;> nomatch h
    have hrename := (contents_cachingRename e.error e.path e.newpath c).trans hslots
    rw [access_rename]
    split
    · exact ⟨⟨hready', hrename, trivial⟩, .none hno rfl rfl⟩
    · exact ⟨⟨hready', hrename, trivial⟩, .none hno rfl rfl⟩
  · have haccess : (Serving.reading r n l).access cfg (.turn res) = none := access_done hfin
    rw [haccess]
    exact ⟨⟨hready', hslots, trivial⟩, .none (fun _ _ h ↦ nomatch haccess.symm.trans h) rfl rfl⟩
  · have haccess : (Serving.reading r (n + 1) l).access cfg (.turn res) =
        some (.hit (r.path, l.number cfg r + 1) i) := (access_turn hfin).trans (access_hit hi)
    change contents l.cache = delivered.map cString at hslots
    obtain ⟨d, hmem, hd, hget⟩ := exists_delivered hslots hi
    have hslots' : contents (l.use i).cache = delivered.map cString :=
      (contents_use l.cache i).trans hslots
    have hdata : (l.use i).data = l.data ++ cString d := by
      rw [data_use, hget, Option.getD_some]
    rw [haccess]
    refine ⟨⟨hready', hslots', hcopied.append hdata⟩,
      .hit (fun _ _ h ↦ nomatch haccess.symm.trans h) d hmem rfl ?_⟩
    rw [Ledger.record, hd, appended_use, hget, Option.getD_some, Option.getD_some]
  · have haccess : (Serving.reading r (n + 1) l).access cfg (.turn res) = none :=
      (access_turn hfin).trans (access_nothing hi hres)
    rw [haccess]
    exact ⟨⟨hready', hslots, trivial⟩, .none (fun _ _ h ↦ nomatch haccess.symm.trans h) rfl rfl⟩
  · have haccess : (Serving.reading r (n + 1) l).access cfg (.turn (some buff)) =
        some (.load (r.path, l.number cfg r + 1) (searchMinCounter l.cache)) :=
      (access_turn hfin).trans (access_load hi hne)
    have hlen : 0 < l.cache.length := hready.1 ▸ cfg.numOfBlocks_pos
    change contents l.cache = delivered.map cString at hslots
    have hslots' : contents (l.put cfg r buff).cache =
        (delivered.set (searchMinCounter l.cache) buff).map cString := by
      rw [contents_put, hslots, List.map_set]
    rw [haccess]
    refine ⟨⟨hready', hslots', hcopied.append (data_put hlen buff)⟩, .load _ _ haccess rfl ?_⟩
    rw [Ledger.record, appended_put hlen]
    rfl

theorem stored_init (cfg : Config) : (Ledger.init cfg).Stored cfg := by
  refine ⟨ready_cachingInit cfg, ?_, trivial⟩
  change contents (cachingInit cfg) = (List.replicate cfg.numOfBlocks []).map cString
  rw [contents, cachingInit, List.map_replicate, List.map_replicate, cString, List.takeWhile_nil]

/-! ## Runs -/

/-- **The answer is copied whole**, whatever is delivered: it holds no NUL. -/
theorem always_copied (cfg : Config) (es : List Event) :
    Run.Always (Ledger.step cfg) (fun s ↦ s.serving.Copied) (Ledger.init cfg) es :=
  (Run.always_of_invariant (fun _ _ _ hs h ↦ (hs.step h).1) (stored_init cfg) es).imp
    fun _ hs ↦ hs.copied

/-- **Blocks survive the cache** exactly as long as no NUL is delivered. -/
theorem survive_iff (cfg : Config) (es : List Event) :
    Run.Always (Ledger.step cfg) Ledger.Survive (Ledger.init cfg) es ↔
      Run.Meets (Ledger.step cfg) (NulFree cfg) (Ledger.init cfg) es := by
  refine Run.always_iff_meets
    (I := fun s ↦ s.Stored cfg ∧ (∀ d ∈ s.delivered, 0 ∉ d) ∧ ∀ u ∈ s.uses, u.2 = u.1)
    ?_ (fun s hs ↦ ⟨hs.2.2, hs.1.copied⟩) ?_ ⟨stored_init cfg, ?_, nofun⟩
  · rintro s e t ⟨hs, hnul, huses⟩ hok hstep
    obtain ⟨ht, hentered⟩ := hs.step hstep
    refine ⟨ht, ?_⟩
    rcases hentered with ⟨-, hd, hu⟩ | ⟨-, d, hmem, hd, hu⟩ | ⟨key, i, haccess, hd, hu⟩
    · rw [hd, hu]
      exact ⟨hnul, huses⟩
    · rw [hd, hu]
      refine ⟨hnul, List.forall_mem_append.mpr ⟨huses, List.forall_mem_singleton.mpr ?_⟩⟩
      exact cString_of_notMem (hnul d hmem)
    · have hbytes : 0 ∉ e.bytes := hok key i haccess
      rw [hd, hu]
      refine ⟨fun d hmem ↦ ?_,
        List.forall_mem_append.mpr ⟨huses, List.forall_mem_singleton.mpr ?_⟩⟩
      · rcases List.mem_or_eq_of_mem_set hmem with hmem | rfl
        · exact hnul d hmem
        · exact hbytes
      · exact cString_of_notMem hbytes
  · rintro s e t ⟨hs, -, -⟩ hstep hsurvive
    obtain ⟨-, ⟨hno, -, -⟩ | ⟨hno, -⟩ | ⟨key, i, -, -, hu⟩⟩ := hs.step hstep
    · exact fun key i h ↦ absurd h (hno key i)
    · exact fun key i h ↦ absurd h (hno key i)
    · intro _ _ _
      have hlast := hsurvive.appended (e.bytes, cString e.bytes)
        (by rw [hu]; exact List.mem_append_right _ List.mem_cons_self)
      exact cString_eq_self_iff.mp hlast
  · intro d hd
    rw [List.eq_of_mem_replicate hd]
    exact List.not_mem_nil

/-- A block of two bytes, the second of which is NUL: one byte of it is appended. -/
theorem exists_not_survive :
    ¬∀ (cfg : Config) (es : List Event),
      Run.Always (Ledger.step cfg) Ledger.Survive (Ledger.init cfg) es := by
  intro h
  have hnot : ¬Run.Always (Ledger.step sampleConfig) Ledger.Survive (Ledger.init sampleConfig)
      [.read ⟨[47, 97], 2, 0⟩ 2, .turn (some [97, 0])] := by decide
  exact hnot (h _ _)

end CachingFs
