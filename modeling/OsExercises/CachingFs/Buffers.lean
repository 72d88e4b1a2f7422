import OsExercises.CachingFs.Bytes
import OsExercises.CachingFs.Cold

/-!
# The buffers

The file system copies C strings into buffers of a fixed size: paths into `fpath` and into the
slots, what `pread` returns into `buff` and into the slots, and the answer into the caller's `buf`.
No copy is preceded by a look at the size of the buffer.

* An `Arena` is a state of the machine with the sizes of the buffers at `_path`, and `Arena.writes`
  is what a step writes, and how large the buffers are.
* `meets_within_iff`: the bytes of a block always fit, and all the rest does in exactly the runs
  whose steps meet `Arena.Fits`.
* `overruns_iff`: a cold read writes the NUL at the end of its answer behind the caller's buffer
  exactly if it gets all the bytes it asks for.
-/

set_option autoImplicit false

namespace CachingFs

open CLib

variable {cfg : Config} {d : Disk} {c : Cache} {r : Read} {l : Locals} {n i : ℕ} {e : Event}
  {rootPath path : Path}

/-! ## Writes -/

/-- A write at the start of a buffer. -/
structure Write where
  /-- How many bytes the buffer has. -/
  size : ℕ
  /-- How many bytes are written. -/
  count : ℕ
  deriving DecidableEq, Repr

/-- The write is one to the buffer alone. -/
def Write.Within (w : Write) : Prop := w.count ≤ w.size

/-- `PATH_MAX`. -/
def pathMax : ℕ := 4096

/-- `fullPath`. -/
def fullPath (rootPath path : Path) : Path := rootPath ++ path.take pathMax

/-- The size of the buffer at `_path` after `setPath`, which makes one where there is none. -/
def pathBuffer (old : Option ℕ) (path : Path) : ℕ := old.getD (path.length + 1)

/-- The paths that are made full in this event. -/
def Event.paths : Event → List Path
  | .read r _ => [r.path]
  | .rename e => [e.path, e.newpath]
  | .turn _ => []

/-- The path a step sets in a slot. -/
def Serving.newPath (cfg : Config) (s : Serving) (e : Event) (i : ℕ) : Option Path :=
  match s.access cfg e with
  | some (.load key j) => if j = i then some key.1 else none
  | some (.rename path newpath) =>
    if (getElem? s.cache i).any fun b ↦ b.path = some path then some newpath else none
  | some (.hit ..) | none => none

/-- The call that returns in this step, without an error. -/
def Serving.returning (cfg : Config) : Serving → Event → Option (Read × Locals)
  | .reading r 0 l, .turn _ => some (r, l)
  | .reading r (_ + 1) l, .turn res =>
    if l.finish then some (r, l)
    else
      match turn cfg (fun _ _ ↦ res) r l with
      | .stop => some (r, l)
      | .next _ | .fail => none
  | _, _ => none

/-- The writes of a turn to `buff`, and to the slot. -/
def Serving.loads (cfg : Config) : Serving → Event → List Write
  | .reading r (_ + 1) l, .turn (some buff) =>
    if l.finish || (isInCache l.cache r.path (l.number cfg r + 1)).isSome then []
    else ⟨cfg.blockSize + 1, buff.length + 1⟩ ::
      if buff = [] then [] else [⟨cfg.blockSize + 1, (cString buff).length + 1⟩]
  | _, _ => []

/-- A state of the machine, with the sizes of the buffers at `_path`. -/
structure Arena where
  serving : Serving
  /-- The size of the buffer of a slot, if it has one. -/
  paths : ℕ → Option ℕ

/-- After `caching_init`. -/
def Arena.init (cfg : Config) : Arena := ⟨.idle (cachingInit cfg), fun _ ↦ none⟩

/-- A step of the machine. -/
def Arena.step (cfg : Config) (s : Arena) (e : Event) : Option Arena :=
  (serve cfg s.serving e).map fun t ↦ ⟨t, fun i ↦
    match s.serving.newPath cfg e i with
    | some path => some (pathBuffer (s.paths i) path)
    | none => s.paths i⟩

/-- What a step writes: full paths, the answer, the bytes of a block, and paths of slots. -/
def Arena.writes (cfg : Config) (rootPath : Path) (s : Arena) (e : Event) : List Write :=
  (e.paths.map fun path ↦ ⟨pathMax, (fullPath rootPath path).length + 1⟩) ++
  ((s.serving.returning cfg e).toList.map fun a ↦
    ⟨a.1.size, (Answer.of a.2.data).buf.length + 1⟩) ++
  s.serving.loads cfg e ++
  (List.range cfg.numOfBlocks).filterMap fun i ↦ (s.serving.newPath cfg e i).map fun path ↦
    ⟨pathBuffer (s.paths i) path, path.length + 1⟩

/-! ## What fits -/

/-- **What must fit**: full paths, answers, and paths in the slots.  A slot keeps the buffer that
was made for its first path. -/
structure Arena.Fits (cfg : Config) (rootPath : Path) (s : Arena) (e : Event) : Prop where
  /-- A full path is shorter than `PATH_MAX`. -/
  full : ∀ path ∈ e.paths, rootPath.length + path.length < pathMax
  /-- An answer is shorter than the request. -/
  answer : ∀ r l, s.serving.returning cfg e = some (r, l) → l.data.length < r.size
  /-- A path is not longer than the first one of its slot. -/
  path : ∀ i path n, s.serving.newPath cfg e i = some path → s.paths i = some n → path.length < n

/-- There is no NUL in the slots, and none in the answer. -/
structure Serving.Clean (cfg : Config) (s : Serving) : Prop where
  ready : s.Ready cfg
  /-- The slots. -/
  slots : ∀ data ∈ contents s.cache, 0 ∉ data
  /-- The answer. -/
  copied : s.Copied

theorem Serving.Clean.serve {s t : Serving} (h : s.Clean cfg) (hst : serve cfg s e = some t) :
    t.Clean cfg := by
  obtain ⟨hready, hslots, hcopied⟩ := h
  have hready' := hready.serve hst
  rcases served_of_serve hst with ⟨c, r, stSize⟩ | ⟨c, e⟩ | ⟨r, n, l, res, -⟩ |
    ⟨r, n, l, res, i, -, hi⟩ | ⟨r, n, l, res, -, -, -⟩ | ⟨r, n, l, buff, -, -, -, -⟩
  · exact ⟨hready', hslots, rfl⟩
  · refine ⟨hready', fun data hdata ↦ hslots data ?_, trivial⟩
    rwa [Serving.cache, contents_cachingRename] at hdata
  · exact ⟨hready', hslots, trivial⟩
  · obtain ⟨b, hb, hget, -⟩ := exists_of_isInCache hi
    have hnul : 0 ∉ b.data := hslots b.data (List.mem_map_of_mem hb)
    have hdata : (l.use i).data = l.data ++ cString b.data := by
      rw [data_use, contents, List.getElem?_map, hget, Option.map_some, Option.getD_some,
        cString_of_notMem hnul]
    refine ⟨hready', fun data hmem ↦ hslots data ?_, hcopied.append hdata⟩
    rwa [Serving.cache, Locals.use, contents_use] at hmem
  · exact ⟨hready', hslots, trivial⟩
  · have hlen : 0 < l.cache.length := hready.1 ▸ cfg.numOfBlocks_pos
    refine ⟨hready', fun data hmem ↦ ?_, hcopied.append (data_put hlen buff)⟩
    rw [Serving.cache, contents_put] at hmem
    rcases List.mem_or_eq_of_mem_set hmem with hmem | rfl
    · exact hslots data hmem
    · exact zero_notMem_cString buff

theorem clean_cachingInit (cfg : Config) : (Serving.idle (cachingInit cfg)).Clean cfg := by
  refine ⟨ready_cachingInit cfg, fun data hdata ↦ ?_, trivial⟩
  obtain ⟨b, hb, rfl⟩ := List.mem_map.mp hdata
  rw [eq_of_mem_cachingInit hb]
  exact List.not_mem_nil

/-- A call that returns was in its loop. -/
theorem exists_of_returning {s : Serving} (h : s.returning cfg e = some (r, l)) :
    ∃ n, s = .reading r n l := by
  cases s with
  | idle c => cases e <;> cases h
  | reading r' n l' =>
    cases e with
    | turn res =>
      have hsame : ∀ o : Option (Read × Locals), o = some (r', l') ∨ o = none → o = some (r, l) →
          Serving.reading r' n l' = .reading r n l := by
        rintro o (rfl | rfl) ho
        · cases ho
          rfl
        · cases ho
      cases n with
      | zero => exact ⟨0, hsame _ (.inl rfl) h⟩
      | succ n =>
        refine ⟨n + 1, hsame _ ?_ h⟩
        rw [Serving.returning]
        split
        · exact .inl rfl
        · split
          · exact .inl rfl
          · exact .inr rfl
          · exact .inr rfl
    | _ => cases n <;> cases h

/-- **The bytes of a block fit**, into `buff` and into the slot. -/
theorem loads_within {s t : Serving} (h : s.Ready cfg) (hst : serve cfg s e = some t) :
    ∀ w ∈ s.loads cfg e, w.Within := by
  rcases served_of_serve hst with ⟨c, r, stSize⟩ | ⟨c, e⟩ | ⟨r, n, l, res, hfin⟩ |
    ⟨r, n, l, res, i, hfin, hi⟩ | ⟨r, n, l, res, hfin, hi, hres⟩ |
    ⟨r, n, l, buff, hfin, hi, hne, hlen⟩
  · exact List.forall_mem_nil _
  · exact List.forall_mem_nil _
  · cases n <;> cases res
    all_goals simp_all [Serving.loads]
  · cases res <;> simp [Serving.loads, hi]
  · rcases hres with rfl | rfl <;> simp [Serving.loads, hfin, hi, Write.Within]
  · have hle : buff.length ≤ cfg.blockSize := by
      rw [Locals.toRead, h.2 hfin] at hlen
      split at hlen <;> omega
    have hcut : (cString buff).length ≤ buff.length := (List.takeWhile_sublist _).length_le
    simp only [Serving.loads, hfin, hi, hne, Option.isSome_none, Bool.or_self, Bool.false_eq_true,
      if_false, List.forall_mem_cons, Write.Within]
    exact ⟨by omega, by omega, List.forall_mem_nil _⟩

/-- A path is set in one of the slots. -/
theorem lt_of_newPath {s t : Serving} (h : s.Ready cfg) (hst : serve cfg s e = some t)
    (hi : s.newPath cfg e i = some path) : i < cfg.numOfBlocks := by
  rw [Serving.newPath] at hi
  rcases served_of_serve hst with ⟨c, r, stSize⟩ | ⟨c, e⟩ | ⟨r, n, l, res, hfin⟩ |
    ⟨r, n, l, res, j, hfin, hj⟩ | ⟨r, n, l, res, hfin, hj, hres⟩ |
    ⟨r, n, l, buff, hfin, hj, hne, hlen⟩
  · cases hi
  · by_cases herr : e.error = none
    · rw [access_rename, if_pos herr] at hi
      dsimp only at hi
      by_contra hlt
      have hnone : getElem? c i = none := by
        rw [List.getElem?_eq_none_iff]
        exact h.trans_le (Nat.le_of_not_lt hlt)
      rw [Serving.cache, hnone, Option.any_none, if_neg Bool.false_ne_true] at hi
      cases hi
    · rw [access_rename, if_neg herr] at hi
      cases hi
  · rw [access_done hfin] at hi
    cases hi
  · rw [access_turn hfin, access_hit hj] at hi
    cases hi
  · rw [access_turn hfin, access_nothing hj hres] at hi
    cases hi
  · rw [access_turn hfin, access_load hj hne] at hi
    dsimp only at hi
    split at hi
    · rename_i hji
      have hpos : 0 < l.cache.length := h.1 ▸ cfg.numOfBlocks_pos
      rw [← hji, ← h.1]
      exact searchMinCounter_lt hpos
    · cases hi

/-- **A step writes to its buffers alone exactly if everything fits.** -/
theorem Arena.within_iff {s t : Arena} (h : s.serving.Clean cfg) (hst : s.step cfg e = some t) :
    (∀ w ∈ s.writes cfg rootPath e, w.Within) ↔ s.Fits cfg rootPath e := by
  obtain ⟨u, hu, -⟩ := Option.map_eq_some_iff.mp hst
  have hfull : (∀ w ∈ e.paths.map fun path ↦
      (⟨pathMax, (fullPath rootPath path).length + 1⟩ : Write), w.Within) ↔
      ∀ path ∈ e.paths, rootPath.length + path.length < pathMax := by
    rw [List.forall_mem_map]
    refine forall₂_congr fun path _ ↦ ?_
    rw [Write.Within, fullPath, List.length_append, List.length_take]
    dsimp only
    omega
  have hanswer : (∀ w ∈ (s.serving.returning cfg e).toList.map fun a ↦
      (⟨a.1.size, (Answer.of a.2.data).buf.length + 1⟩ : Write), w.Within) ↔
      ∀ r l, s.serving.returning cfg e = some (r, l) → l.data.length < r.size := by
    rw [List.forall_mem_map]
    simp only [Option.mem_toList, Prod.forall]
    refine forall₂_congr fun r l ↦ forall_congr' fun hret ↦ ?_
    obtain ⟨n, hs⟩ := exists_of_returning hret
    have hcopied := h.copied
    rw [hs] at hcopied
    rw [show Answer.of l.data = _ from hcopied]
    exact Nat.succ_le_iff
  have hpath : (∀ w ∈ (List.range cfg.numOfBlocks).filterMap fun i ↦
      (s.serving.newPath cfg e i).map fun path ↦
        (⟨pathBuffer (s.paths i) path, path.length + 1⟩ : Write), w.Within) ↔
      ∀ i path n, s.serving.newPath cfg e i = some path → s.paths i = some n →
        path.length < n := by
    simp only [List.forall_mem_filterMap, List.mem_range, Option.map_eq_some_iff]
    constructor
    · intro hall i path n hi hn
      have hlt := lt_of_newPath h.ready hu hi
      have hw := hall i hlt _ ⟨path, hi, rfl⟩
      rw [Write.Within, pathBuffer, hn, Option.getD_some] at hw
      exact hw
    · rintro hall i - w ⟨path, hi, rfl⟩
      rw [Write.Within, pathBuffer]
      cases hn : s.paths i with
      | none => exact le_rfl
      | some n => exact hall i path n hi hn
  rw [Arena.writes, List.forall_mem_append, List.forall_mem_append, List.forall_mem_append,
    hfull, hanswer, hpath, and_iff_left (loads_within h.ready hu)]
  exact ⟨fun ⟨⟨h1, h2⟩, h3⟩ ↦ ⟨h1, h2, h3⟩, fun ⟨h1, h2, h3⟩ ↦ ⟨⟨h1, h2⟩, h3⟩⟩

theorem Arena.clean_step {s t : Arena} (h : s.serving.Clean cfg) (hst : s.step cfg e = some t) :
    t.serving.Clean cfg := by
  obtain ⟨u, hu, rfl⟩ := Option.map_eq_some_iff.mp hst
  exact h.serve hu

/-- The bytes of a block fit in every step of every run. -/
theorem meets_loads_within (cfg : Config) (es : List Event) :
    Run.Meets (Arena.step cfg) (fun s e ↦ ∀ w ∈ s.serving.loads cfg e, w.Within) (.init cfg)
      es := by
  have hclean : Run.Always (Arena.step cfg) (fun s ↦ s.serving.Clean cfg) (.init cfg) es :=
    Run.always_of_invariant (fun _ _ _ h hst ↦ Arena.clean_step h hst) (clean_cachingInit cfg) es
  refine hclean.meets fun s e t h hst ↦ ?_
  obtain ⟨u, hu, -⟩ := Option.map_eq_some_iff.mp hst
  exact loads_within h.ready hu

/-- **When all writes are to the buffers alone**: the bytes of a block always fit, and all the rest
does in exactly the runs whose steps write nothing but what fits. -/
theorem meets_within_iff {es : List Event} :
    Run.Meets (Arena.step cfg) (fun s e ↦ ∀ w ∈ s.serving.loads cfg e, w.Within) (.init cfg) es ∧
      (Run.Meets (Arena.step cfg) (fun s e ↦ ∀ w ∈ s.writes cfg rootPath e, w.Within)
          (.init cfg) es ↔
        Run.Meets (Arena.step cfg) (Arena.Fits cfg rootPath) (.init cfg) es) := by
  refine ⟨meets_loads_within cfg es, ?_⟩
  exact Run.meets_congr (I := fun s ↦ s.serving.Clean cfg)
    (fun _ _ _ h hst ↦ Arena.clean_step h hst) (fun _ _ _ h hst ↦ Arena.within_iff h hst)
    (clean_cachingInit cfg)

/-! ## The caller's buffer -/

/-- `caching_read` writes behind the caller's buffer. -/
def Overruns (cfg : Config) (d : Disk) (c : Cache) (r : Read) : Prop :=
  ∃ a, (d.read cfg c r).2 = some a ∧ ¬(⟨r.size, a.buf.length + 1⟩ : Write).Within

/-- **When a cold read writes behind the caller's buffer**: exactly if it gets all the bytes it asks
for, because the file has them and the loop turns often enough. -/
theorem overruns_iff (hlen : 0 < c.length) (hcold : Cold c r.path) :
    Overruns cfg d c r ↔ r.size ≤ (d.content r.path).length - r.offset ∧
      r.size ≤ turns cfg (d.content r.path).length r * cfg.blockSize := by
  set data := ((d.content r.path).drop r.offset).take
    (min r.size (turns cfg (d.content r.path).length r * cfg.blockSize)) with hdata
  have hread : (d.read cfg c r).2 = some (.of data) :=
    read_of_misses hlen fun i _ _ ↦ hcold.isInCache _
  have hnul : 0 ∉ data := d.nul_notMem r.path _ _
  have hcount : data.length = min (min r.size
      (turns cfg (d.content r.path).length r * cfg.blockSize))
      ((d.content r.path).length - r.offset) := by
    rw [hdata, List.length_take, List.length_drop]
  have hover : Overruns cfg d c r ↔ r.size ≤ data.length := by
    rw [Overruns, hread]
    constructor
    · rintro ⟨a, ha, hnot⟩
      rw [← Option.some.inj ha, Write.Within, Answer.buf_of hnul] at hnot
      exact Nat.le_of_lt_succ (not_le.mp hnot)
    · intro hle
      refine ⟨_, rfl, ?_⟩
      rw [Write.Within, Answer.buf_of hnul]
      exact not_le.mpr (Nat.lt_succ_of_le hle)
  rw [hover, hcount]
  omega

theorem overruns_iff_sample :
    Overruns sampleConfig sampleDisk (cachingInit sampleConfig) wholeRead :=
  (overruns_iff (by decide) (cold_cachingInit _)).mpr ⟨by decide, by decide⟩

end CachingFs
