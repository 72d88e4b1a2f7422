import OsExercises.Blockchain.Linked

/-!
# Several clients add blocks

A call of `add_block` is three steps here: it chooses a number, it chooses a father, and it makes
the block and lists its number.  The steps of any number of clients and the iterations of the daemon
come in any order; nothing else happens, so no block is ever freed.

* `exec_call` says that a call no other step comes between is `add_block`.
* `Apart` is the invariant of the runs in which a call always makes its block before another call
  makes one: the blocks' numbers are their addresses.
* `always_unshared_iff` says that these are exactly the runs in which no two blocks get the same
  number.
-/

set_option autoImplicit false

namespace Blockchain

variable {H : HashLib} {p q : BlockPtr} {c pick seed : ℕ} {data : Option (List UInt8)}
variable {length idx fatherIdx : ℤ} {since : BlockPtr}

/-! ## The clients -/

/-- Where a client's call of `add_block` is.  The next free address at the time a number was chosen,
`since`, is noted for the statements only. -/
inductive Stage
  /-- The client is not calling `add_block`. -/
  | idle
  /-- The call has chosen a number. -/
  | numbered (data : Option (List UInt8)) (length idx : ℤ) (since : BlockPtr)
  /-- The call has chosen a number and a father. -/
  | fathered (data : Option (List UInt8)) (length idx fatherIdx : ℤ) (since : BlockPtr)

/-- The chain and its clients. -/
structure Clients where
  /-- The global variables. -/
  chain : Chain
  /-- The clients' calls. -/
  calls : ℕ → Stage

/-- An event: a step of a client's call, or an iteration of the daemon. -/
inductive ClientEvent
  /-- A call begins, and chooses a number. -/
  | choose (c : ℕ) (data : Option (List UInt8)) (length : ℤ)
  /-- A call chooses the father. -/
  | father (c pick : ℕ)
  /-- A call makes its block. -/
  | create (c : ℕ)
  /-- An iteration of the daemon. -/
  | daemon (pick seed : ℕ)
  deriving DecidableEq, Repr

/-- A client's call is at a stage. -/
def Clients.put (m : Clients) (s : Chain) (c : ℕ) (stage : Stage) : Clients :=
  ⟨s, Function.update m.calls c stage⟩

/-- What happens at an event. -/
def Clients.step (H : HashLib) (m : Clients) : ClientEvent → Option Clients
  | .choose c data length =>
    match m.calls c with
    | .idle =>
      if !m.chain.isInitiated || m.chain.currentlyBlocked then some m
      else
        let (idx, s) := findMinIdx m.chain
        some (m.put s c (.numbered data length idx s.brk))
    | _ => none
  | .father c pick =>
    match m.calls c with
    | .numbered data length idx since =>
      some (m.put m.chain c (.fathered data length idx (findFather m.chain pick) since))
    | _ => none
  | .create c =>
    match m.calls c with
    | .fathered data length idx fatherIdx _ =>
      some (m.put (createBlock m.chain data length idx fatherIdx).2 c .idle)
    | _ => none
  | .daemon pick seed => (Blockchain.step H m.chain (.daemon pick seed)).map fun t ↦ ⟨t, m.calls⟩

/-- An open chain whose clients are idle. -/
def Clients.start (s : Chain) : Clients := ⟨s, fun _ ↦ .idle⟩

/-- **A call no other step comes between is `add_block`.** -/
theorem exec_call {m : Clients} (hidle : m.calls c = .idle)
    (hopen : ¬(!m.chain.isInitiated || m.chain.currentlyBlocked) = true) :
    Run.exec (Clients.step H) m [.choose c data length, .father c pick, .create c] =
      some ⟨(addBlock m.chain data length pick).2, m.calls⟩ := by
  have hback : ∀ x y, Function.update (Function.update (Function.update m.calls c x) c y) c .idle =
      m.calls := fun x y ↦ by
    rw [Function.update_idem, Function.update_idem, ← hidle, Function.update_eq_self]
  rw [addBlock, if_neg hopen]
  simp only [Run.exec, Clients.step, hidle, if_neg hopen, Option.bind_some, Clients.put,
    Function.update_self, hback]

/-! ## The numbers -/

/-- No two blocks have the same number, and every block is waiting for the daemon or stored under
its number. -/
structure Unshared (s : Chain) : Prop where
  /-- The numbers are distinct. -/
  distinct : ∀ p q, p < s.brk → q < s.brk → (s.heap p).index = (s.heap q).index → p = q
  /-- The daemon stores each block it takes. -/
  stored : ∀ p < s.brk, p ∈ s.blockQueue ∨ s.Attached p

/-- A call that makes a block chose its number after the last block was made. -/
def Alone (m : Clients) : ClientEvent → Prop
  | .create c =>
    match m.calls c with
    | .fathered data length _ _ since => data.isSome ∧ length < 0 ∨ since = m.chain.brk
    | _ => True
  | _ => True

/-- What a client knows: its number was free when it chose it, and its father is there. -/
def Stage.Fits (s : Chain) : Stage → Prop
  | .idle => True
  | .numbered _ _ idx since => idx = since ∧ since ≤ s.brk
  | .fathered _ _ idx fatherIdx since => idx = since ∧ since ≤ s.brk ∧ fatherIdx ∈ s.blockMap

/-- The invariant. -/
structure Clients.Apart (m : Clients) : Prop where
  /-- The blocks hang together. -/
  linked : Linked m.chain
  /-- The numbers in use are those of the blocks. -/
  listed : m.chain.vecIndex = (List.range m.chain.brk).map fun i : ℕ ↦ (i : ℤ)
  /-- A block's number is its address. -/
  own : ∀ p < m.chain.brk, (m.chain.heap p).index = p
  /-- A block is pending or attached. -/
  stored : ∀ p < m.chain.brk, p ∈ m.chain.blockQueue ∨ m.chain.Attached p
  /-- The fathers of the pending blocks are there. -/
  fathers : ∀ p ∈ m.chain.blockQueue, (m.chain.heap p).fatherIndex ∈ m.chain.blockMap
  /-- The calls on their way fit. -/
  stages : ∀ c, (m.calls c).Fits m.chain

variable {s : Chain} {m m' : Clients} {e : ClientEvent}

/-- With the numbers below `brk` in use, `brk` is next. -/
theorem minIdx_of_listed (h : s.vecIndex = (List.range s.brk).map fun i : ℕ ↦ (i : ℤ)) :
    s.minIdx = s.brk ∧ s.vecIndex.insertionSort (· ≤ ·) = s.vecIndex := by
  have hmem : ∀ v : ℤ, v ∈ s.vecIndex ↔ ∃ i < s.brk, (i : ℤ) = v := by simp [h]
  have hlt : s.vecIndex.Pairwise (· < ·) := by
    rw [h, List.pairwise_map]
    exact List.pairwise_lt_range.imp fun hij ↦ by exact_mod_cast hij
  have hleast : IsLeast {v | 0 ≤ v ∧ v ∉ s.vecIndex} (s.brk : ℤ) := by
    refine ⟨⟨Int.natCast_nonneg _, fun hb ↦ ?_⟩, fun v hv ↦ ?_⟩
    · obtain ⟨i, hi, hib⟩ := (hmem _).mp hb
      exact hi.ne (Int.natCast_inj.mp hib)
    · by_contra hle
      exact hv.2 ((hmem v).mpr ⟨v.toNat, (Int.toNat_lt hv.1).mpr (not_le.mp hle),
        Int.toNat_of_nonneg hv.1⟩)
  refine ⟨(s.isLeast_minIdx (hlt.imp fun hvw ↦ hvw.ne) fun v hv ↦ ?_).unique hleast,
    (hlt.imp le_of_lt).insertionSort_eq⟩
  obtain ⟨i, -, rfl⟩ := (hmem v).mp hv
  exact Int.natCast_nonneg i

/-- **What a step does.** -/
theorem Clients.step_cases (hs : m.Apart) (hst : m.step H e = some m') :
    (∃ c data length, e = .choose c data length ∧
        m' = m.put m.chain c (.numbered data length m.chain.brk m.chain.brk)) ∨
      (∃ c pick data length idx since, e = .father c pick ∧
        m.calls c = .numbered data length idx since ∧
        m' = m.put m.chain c (.fathered data length idx (findFather m.chain pick) since)) ∨
      (∃ c data length idx fatherIdx since, e = .create c ∧
        m.calls c = .fathered data length idx fatherIdx since ∧
        m' = m.put (createBlock m.chain data length idx fatherIdx).2 c .idle) ∨
      (∃ pick seed, e = .daemon pick seed ∧
        m' = ⟨(daemonFunction H m.chain pick seed).2, m.calls⟩) := by
  match e with
  | .choose c data length =>
    rw [Clients.step] at hst
    split at hst
    · obtain ⟨hmin, hsort⟩ := minIdx_of_listed hs.listed
      rw [if_neg hs.linked.not_closed] at hst
      have hfind : findMinIdx m.chain = ((m.chain.brk : ℤ), m.chain) := by
        rw [← hmin]
        exact Prod.ext rfl (congrArg (fun v ↦ { m.chain with vecIndex := v }) hsort)
      rw [hfind] at hst
      exact .inl ⟨c, data, length, rfl, (Option.some.inj hst).symm⟩
    · cases hst
  | .father c pick =>
    rw [Clients.step] at hst
    split at hst
    · rename_i data length idx since hc
      exact .inr (.inl ⟨c, pick, data, length, idx, since, rfl, hc, (Option.some.inj hst).symm⟩)
    · cases hst
  | .create c =>
    rw [Clients.step] at hst
    split at hst
    · rename_i data length idx fatherIdx since hc
      exact .inr (.inr (.inl ⟨c, data, length, idx, fatherIdx, since, rfl, hc,
        (Option.some.inj hst).symm⟩))
    · cases hst
  | .daemon pick seed =>
    rw [Clients.step, hs.linked.step_eq] at hst
    exact .inr (.inr (.inr ⟨pick, seed, rfl, (Option.some.inj hst).symm⟩))

theorem Clients.Apart.unshared (hs : m.Apart) : Unshared m.chain := by
  refine ⟨fun p q hp hq hpq ↦ ?_, hs.stored⟩
  rw [hs.own p hp, hs.own q hq] at hpq
  exact_mod_cast hpq

/-- What a client knows stays true when blocks are made and attached. -/
theorem Stage.Fits.mono {s t : Chain} {stage : Stage} (h : stage.Fits s) (hbrk : s.brk ≤ t.brk)
    (hmap : ∀ k, k ∈ s.blockMap → k ∈ t.blockMap) : stage.Fits t := by
  match stage with
  | .idle => trivial
  | .numbered _ _ _ _ => exact ⟨h.1, h.2.trans hbrk⟩
  | .fathered _ _ _ _ _ => exact ⟨h.1, h.2.1.trans hbrk, hmap _ h.2.2⟩

theorem Clients.put_calls_self {t : Chain} {stage : Stage} :
    (m.put t c stage).calls c = stage := Function.update_self _ _ _

theorem Clients.put_calls_of_ne {t : Chain} {stage : Stage} {d : ℕ} (hd : d ≠ c) :
    (m.put t c stage).calls d = m.calls d := Function.update_of_ne hd _ _

/-- The other clients stay where they are. -/
theorem Clients.Apart.put_stages (hs : m.Apart) {t : Chain} (c : ℕ) (stage : Stage)
    (hbrk : m.chain.brk ≤ t.brk) (hmap : ∀ k, k ∈ m.chain.blockMap → k ∈ t.blockMap)
    (hstage : stage.Fits t) (d : ℕ) : ((m.put t c stage).calls d).Fits t := by
  by_cases hd : d = c
  · rw [hd, Clients.put_calls_self]
    exact hstage
  · rw [Clients.put_calls_of_ne hd]
    exact (hs.stages d).mono hbrk hmap

/-- A pending block's number is not that of an attached block. -/
theorem Clients.Apart.index_notMem (hs : m.Apart) (hp : p ∈ m.chain.blockQueue) :
    (m.chain.heap p).index ∉ m.chain.blockMap := by
  obtain ⟨hnot, hlt, -⟩ := hs.linked.pending p hp
  intro hmem
  obtain ⟨q, hq⟩ := exists_of_mem_blockMap hmem
  have hqp : q = p := by
    have hkey := hs.linked.key _ q hq
    rw [hs.own q (hs.linked.lt_brk q (hs.linked.attached hq)), hs.own p hlt] at hkey
    exact_mod_cast hkey
  rw [hqp] at hq
  exact hnot hq

/-- The daemon stores every block it takes. -/
theorem Clients.Apart.daemon (hs : m.Apart) (pick seed : ℕ) :
    Clients.Apart ⟨(daemonFunction H m.chain pick seed).2, m.calls⟩ := by
  match hq : m.chain.blockQueue with
  | [] =>
    rw [daemonFunction_nil hq]
    exact hs
  | p :: rest =>
    rw [hs.linked.daemonFunction_eq hq]
    have hmem : p ∈ m.chain.blockQueue := by simp [hq]
    have hnew := hs.index_notMem hmem
    obtain ⟨f, hf⟩ := exists_of_mem_blockMap
      (hs.linked.fatherOf_mem_iff.mpr (.inr (hs.fathers p hmem)))
    have hget := getElem?_processed H seed rest hf
    have hkeep : ∀ k, k ∈ m.chain.blockMap →
        k ∈ (m.chain.processed H p rest pick seed).blockMap :=
      fun k hk ↦ mem_processed_iff.mpr (.inl hk)
    have hindex := processed_index H m.chain p rest pick seed
    refine ⟨hs.linked.processed hq, hs.listed, fun r hr ↦ ?_, fun r hr ↦ ?_, fun r hr ↦ ?_,
      fun c ↦ (hs.stages c).mono le_rfl hkeep⟩
    · rw [hindex]
      exact hs.own r hr
    · by_cases hrp : r = p
      · refine .inr ?_
        rw [Chain.Attached, hindex, hrp, hget, if_pos ⟨rfl, hnew⟩]
      · rcases hs.stored r hr with hr' | hr'
        · rw [hq] at hr'
          exact .inl ((List.mem_cons.mp hr').resolve_left hrp)
        · refine .inr ?_
          rw [Chain.Attached, hindex, hget, if_neg fun hk ↦ hnew ?_]
          · exact hr'
          · rw [hk.1]
            exact mem_blockMap hr'
    · obtain ⟨hmem, hrp⟩ := hs.linked.mem_rest hq hr
      rw [processed_heap_of_ne hrp]
      exact hkeep _ (hs.fathers r hmem)

/-- What the last part of `add_block` does when the father is attached. -/
theorem createBlock_cases (s : Chain) (data : Option (List UInt8)) (length idx : ℤ)
    (hf : fatherIdx ∈ s.blockMap) : ∃ d, (createBlock s data length idx fatherIdx).2 =
      if data.isSome ∧ length < 0 then s else s.created data length idx fatherIdx d := by
  obtain ⟨f, hf⟩ := exists_of_mem_blockMap hf
  refine ⟨(s.heap f).depth + 1, ?_⟩
  rw [createBlock_eq data length idx hf]
  exact apply_ite Prod.snd _ _ _

/-- A call that was alone makes a block with its own number. -/
theorem Clients.Apart.created (hs : m.Apart) (d : ℤ) (hf : fatherIdx ∈ m.chain.blockMap) :
    Clients.Apart (m.put (m.chain.created data length m.chain.brk fatherIdx d) c .idle) := by
  refine ⟨hs.linked.created (Int.natCast_nonneg _), ?_, fun p hp ↦ ?_, fun p hp ↦ ?_, fun p hp ↦ ?_,
    hs.put_stages c .idle (Nat.le_succ _) (fun _ hk ↦ hk) trivial⟩
  · change m.chain.vecIndex ++ _ = (List.range (m.chain.brk + 1)).map _
    rw [List.range_succ, List.map_append, ← hs.listed]
    rfl
  · rcases Nat.lt_succ_iff_lt_or_eq.mp hp with hlt | rfl
    · rw [Clients.put, created_heap_of_lt _ _ _ _ _ hlt]
      exact hs.own p hlt
    · rw [Clients.put, created_heap_self]
      rfl
  · rcases Nat.lt_succ_iff_lt_or_eq.mp hp with hlt | rfl
    · rw [Chain.Attached, Clients.put, created_heap_of_lt _ _ _ _ _ hlt]
      exact (hs.stored p hlt).imp_left (List.mem_append_left _)
    · exact .inl (List.mem_append_right _ (List.mem_singleton_self _))
  · rcases List.mem_append.mp hp with hp | hp
    · rw [Clients.put, created_heap_of_lt _ _ _ _ _ (hs.linked.pending p hp).2.1]
      exact hs.fathers p hp
    · rw [List.mem_singleton.mp hp, Clients.put, created_heap_self]
      exact hf

/-- **The step lemma.** -/
theorem Clients.Apart.step (hs : m.Apart) (hok : Alone m e) (hst : m.step H e = some m') :
    m'.Apart := by
  rcases Clients.step_cases hs hst with ⟨c, data, length, -, rfl⟩ |
    ⟨c, pick, data, length, idx, since, -, hc, rfl⟩ |
    ⟨c, data, length, idx, fatherIdx, since, rfl, hc, rfl⟩ | ⟨pick, seed, -, rfl⟩
  · exact ⟨hs.linked, hs.listed, hs.own, hs.stored, hs.fathers,
      hs.put_stages c (.numbered ..) le_rfl (fun _ hk ↦ hk) ⟨rfl, le_rfl⟩⟩
  · obtain ⟨f, hf, -⟩ := hs.linked.findFather_spec pick
    have hstage := hs.stages c
    rw [hc] at hstage
    exact ⟨hs.linked, hs.listed, hs.own, hs.stored, hs.fathers,
      hs.put_stages c (.fathered ..) le_rfl (fun _ hk ↦ hk)
        ⟨hstage.1, hstage.2, mem_blockMap hf⟩⟩
  · have hstage := hs.stages c
    rw [hc] at hstage
    rw [Alone] at hok
    simp only [hc] at hok
    obtain ⟨d, heq⟩ := createBlock_cases m.chain data length idx hstage.2.2
    rw [heq]
    split
    · exact ⟨hs.linked, hs.listed, hs.own, hs.stored, hs.fathers,
        hs.put_stages c .idle le_rfl (fun _ hk ↦ hk) trivial⟩
    · rename_i hgood
      have hsince : since = m.chain.brk := by
        rcases hok with hbad | hbad
        · exact absurd hbad hgood
        · exact hbad
      rw [hstage.1, hsince]
      exact hs.created d hstage.2.2
  · exact hs.daemon pick seed

/-- A call that was not alone gives a number away again. -/
theorem Clients.Apart.alone_of_unshared (hs : m.Apart) (hst : m.step H e = some m')
    (hm' : Unshared m'.chain) : Alone m e := by
  match e with
  | .choose .. | .father .. | .daemon .. => trivial
  | .create c =>
    rw [Alone]
    split
    case h_2 => trivial
    case h_1 data length idx fatherIdx since hc =>
      have hstage := hs.stages c
      rw [hc] at hstage
      obtain ⟨hidx, hle, hf⟩ := hstage
      obtain ⟨d, heq⟩ := createBlock_cases m.chain data length idx hf
      rw [Clients.step, hc] at hst
      cases hst
      by_contra hno
      rw [not_or] at hno
      rw [Clients.put, heq, if_neg hno.1] at hm'
      -- the block at this address has the number already
      have hlt : since < m.chain.brk := lt_of_le_of_ne hle hno.2
      refine hlt.ne (hm'.distinct since m.chain.brk (hlt.trans (Nat.lt_succ_self _))
        (Nat.lt_succ_self _) ?_)
      rw [created_heap_of_lt _ _ _ _ _ hlt, created_heap_self, hs.own since hlt, ← hidx]
      rfl

theorem initBlockchain_apart {s₀ : Chain}
    (h0 : initBlockchain Chain.fresh true = (.ret success, s₀)) : (Clients.start s₀).Apart := by
  have hlinked := initBlockchain_linked h0
  obtain ⟨g, hg, -⟩ := hlinked.genesis
  have hs₀ := (Prod.mk.inj h0).2
  have hzero : ∀ p < s₀.brk, p = 0 := fun p hp ↦ by
    rw [← hs₀] at hp
    exact Nat.lt_one_iff.mp hp
  have hheap : s₀.heap = Chain.fresh.heap := by
    rw [← hs₀]
    exact Function.update_eq_self 0 Chain.fresh.heap
  have hindex : ∀ p, (s₀.heap p).index = 0 := fun p ↦ by rw [hheap]; rfl
  refine ⟨hlinked, ?_, fun p hp ↦ ?_, fun p hp ↦ .inr ?_, fun p hp ↦ ?_, fun _ ↦ trivial⟩
  · rw [Clients.start, ← hs₀]
    rfl
  · rw [Clients.start, hindex, hzero p hp]
    rfl
  · rw [hzero p hp, Clients.start, Chain.Attached, hindex, ← hzero g (hlinked.lt_brk g ?_)]
    · exact hg
    · exact hlinked.attached hg
  · rw [Clients.start, ← hs₀] at hp
    cases hp

/-- **No two blocks share a number, and the daemon stores every block it takes, in exactly the runs
in which a call makes its block before any other call has made one since it chose its number.** -/
theorem always_unshared_iff {s₀ : Chain} {es : List ClientEvent}
    (h0 : initBlockchain Chain.fresh true = (.ret success, s₀)) :
    Run.Always (Clients.step H) (fun m ↦ Unshared m.chain) (.start s₀) es ↔
      Run.Meets (Clients.step H) Alone (.start s₀) es :=
  Run.always_iff_meets (fun _ _ _ hs hok hst ↦ hs.step hok hst) (fun _ hs ↦ hs.unshared)
    (fun _ _ _ hs hst hm' ↦ hs.alone_of_unshared hst hm') (initBlockchain_apart h0)

theorem not_unshared_of_index
    (h : ((s.heap 1).index, (s.heap 2).index, s.brk) = (1, 1, 3)) : ¬Unshared s := fun hu ↦ by
  simp only [Prod.mk.injEq] at h
  obtain ⟨h1, h2, hbrk⟩ := h
  exact absurd (hu.distinct 1 2 (by rw [hbrk]; decide) (by rw [hbrk]; decide) (h1.trans h2.symm))
    (by decide)

/-- Two clients choose their numbers before either of them makes its block. -/
def racingEvents : List ClientEvent :=
  [.choose 0 none 0, .choose 1 none 0, .father 0 0, .father 1 0, .create 0, .create 1]

theorem exec_racingEvents :
    ∃ m, Run.exec (Clients.step plainHash) (.start (initBlockchain Chain.fresh true).2)
        racingEvents = some m ∧
      ((m.chain.heap 1).index, (m.chain.heap 2).index, m.chain.brk) = (1, 1, 3) := by
  rw [← Option.map_eq_some_iff]
  decide

/-- Both get the number 1. -/
theorem exists_not_unshared :
    ∃ s₀ m, initBlockchain Chain.fresh true = (.ret success, s₀) ∧
      Run.exec (Clients.step plainHash) (.start s₀) racingEvents = some m ∧ ¬Unshared m.chain := by
  obtain ⟨m, hm, h⟩ := exec_racingEvents
  exact ⟨_, m, rfl, hm, not_unshared_of_index h⟩

theorem always_unshared_iff_sample :
    ¬Run.Meets (Clients.step plainHash) Alone (.start (initBlockchain Chain.fresh true).2)
      racingEvents := by
  intro hmeets
  obtain ⟨m, hm, h⟩ := exec_racingEvents
  exact not_unshared_of_index h (((always_unshared_iff rfl).mpr hmeets).of_exec hm)

end Blockchain
