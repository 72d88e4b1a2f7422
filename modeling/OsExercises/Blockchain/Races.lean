import OsExercises.Blockchain.Program

/-!
# What goes wrong between the steps

Two things hold of the whole program only when its threads are kept apart by more than its mutexes.

* `always_single_iff`: there is at most one daemon, and none when the chain is not open, in exactly
  the runs in which a closing thread resets everything only after the daemons have ended.
* `always_rooted_iff`: the attached blocks are a tree with the genesis block at its root in exactly
  the runs in which a worker inserts a block only if its father is still attached, and `prune_chain`
  sweeps only while the genesis block is still marked.  The father was looked up before `mapMutex`
  was locked, and the marks were set before that, so another `prune_chain` can come between.
-/

set_option autoImplicit false

namespace Blockchain

variable {H : HashLib} {s t : Chain} {p q r : BlockPtr} {k : ℤ} {pick seed : ℕ} {pastEnd : ℤ}

namespace Program

variable {m m' : Program} {i j : ThreadId} {l : Place} {e : ProgramEvent}

/-! ## Daemons that outlive their chain -/

/-- A daemon that has not ended. -/
def Daemon (m : Program) (i : ThreadId) : Prop := (m.place i).worker = some .daemon

/-- There is at most one daemon, and the chain is open when there is one. -/
def Single (m : Program) : Prop :=
  ∀ i, m.Daemon i → m.chain.isInitiated = true ∧ ∀ j, m.Daemon j → j = i

/-- A closing thread resets everything only after the daemons have ended.  Where somebody holds a
mutex, it does not get that far. -/
def DaemonsEnded (m : Program) : ProgramEvent → Prop
  | .run i _ _ _ => m.place i = .reset → (∀ a, m.owner a = none) → ∀ j, ¬m.Daemon j
  | _ => True

theorem Runs.daemon (hr : m.Runs i m') (hj : m'.Daemon j) : m.Daemon j := by
  by_cases hji : j = i
  · subst hji
    rcases hr.worker with hw | hend
    · exact hw.symm.trans hj
    · rw [Daemon, hend] at hj
      cases hj
  · rwa [Daemon, ← hr.others j hji]

/-- Who is a daemon after a thread was made. -/
theorem daemon_create_iff (h : m.Locking) :
    (m.create l).Daemon j ↔ m.Daemon j ∨ j = m.made ∧ l.worker = some .daemon := by
  rw [Daemon, Daemon, create_place]
  split
  · rename_i hj
    rw [hj, h.unborn m.made le_rfl]
    simp [Place.worker]
  · rename_i hj
    simp [hj]

/-- **The step lemma.** -/
theorem Single.step_iff (h : m.Locking) (hs : m.Single) (hst : m.step H e = some m') :
    m'.Single ↔ m.DaemonsEnded e := by
  have hcreate : ∀ {l}, l.worker ≠ some .daemon → ∀ j, (m.create l).Daemon j → m.Daemon j :=
    fun hl j hj ↦ ((daemon_create_iff h).mp hj).resolve_right fun hnew ↦ hl hnew.2
  rw [Program.step] at hst
  split at hst
  · cases hst
  cases e with
  | init created =>
    refine iff_of_true ?_ trivial
    rcases init_cases hst with ⟨hno, rfl⟩ | ⟨b, rfl⟩
    · have hone : ∀ j, (m.create .head).Daemon j → j = m.made := by
        intro j hj
        rcases (daemon_create_iff h).mp hj with hold | ⟨hnew, -⟩
        · rw [(hs j hold).1] at hno
          cases hno
        · exact hnew
      exact fun i hi ↦ ⟨rfl, fun j hj ↦ (hone j hj).trans (hone i hi).symm⟩
    · exact hs
  | close =>
    refine iff_of_true ?_ trivial
    rcases close_cases hst with ⟨hopen, rfl⟩ | rfl
    · have hold := hcreate (l := .lockQueue .closer) (by simp [Place.worker])
      exact fun i hi ↦ ⟨hopen, fun j hj ↦ (hs i (hold i hi)).2 j (hold j hj)⟩
    · exact hs
  | toLongest k =>
    refine iff_of_true ?_ trivial
    rw [← Option.some.inj hst]
    exact fun i hi ↦ ⟨(sameFlags_toLongest _ k).initiated.trans (hs i hi).1, (hs i hi).2⟩
  | attachNow k =>
    refine iff_of_true ?_ trivial
    rw [← Option.some.inj hst]
    exact fun i hi ↦ ⟨(sameFlags_attachNow _ k).initiated.trans (hs i hi).1, (hs i hi).2⟩
  | call r =>
    refine iff_of_true ?_ trivial
    rw [← Option.some.inj hst]
    have hold := hcreate (l := r.place) (by cases r <;> simp [Request.place, Place.worker])
    exact fun i hi ↦ ⟨(hs i (hold i hi)).1, fun j hj ↦ (hs i (hold i hi)).2 j (hold j hj)⟩
  | run i pick seed pastEnd =>
    have hrun : m.runStep i H pick seed pastEnd = some m' := hst
    have hr := runStep_runs hrun
    by_cases hreset : m.place i = .reset ∧ ∀ a, m.owner a = none
    · obtain ⟨hp, hfree⟩ := hreset
      have hclosed : m'.chain.isInitiated = false := by
        simp only [runStep, hp, hfree, Option.isSome_none, Bool.or_self, Bool.false_eq_true,
          if_false] at hrun
        rw [← Option.some.inj hrun]
        rfl
      constructor
      · intro hs' _ _ j hj
        have hji : j ≠ i := by
          rintro rfl
          rw [Daemon, hp] at hj
          cases hj
        have hj' : m'.Daemon j := by rwa [Daemon, hr.others j hji]
        rw [(hs' j hj').1] at hclosed
        cases hclosed
      · exact fun hno j hj ↦ absurd (hr.daemon hj) (hno hp hfree j)
    · refine iff_of_true (fun j hj ↦ ⟨?_, fun j' hj' ↦ ?_⟩) fun hp hfree ↦ absurd ⟨hp, hfree⟩ hreset
      · rcases hr.flags with ⟨hflags, -⟩ | ⟨hp, -, -, -, hfree⟩
        · exact hflags.initiated.trans (hs j (hr.daemon hj)).1
        · exact absurd ⟨hp, hfree⟩ hreset
      · exact (hs j (hr.daemon hj)).2 j' (hr.daemon hj')

/-- **How many daemons there are**: never two, and none without an open chain, in exactly the runs
in which a closing thread resets everything only after the daemons have ended. -/
theorem always_single_iff {es : List ProgramEvent} :
    Run.Always (Program.step H) Single fresh es ↔
      Run.Meets (Program.step H) DaemonsEnded fresh es := by
  refine Run.Always.iff_meets (J := Locking) (fun m e m' h hs hst ↦ hs.step_iff h hst)
    (Run.always_of_invariant (fun _ _ _ hm hst ↦ hm.step hst) locking_fresh es) ?_
  intro i hi
  cases hi

/-- The chain is closed and opened again before the daemon looks at the flag, and two daemons find
one block. -/
def twoDaemonsEvents : List ProgramEvent :=
  [.init true, .close, .run 1 0 0 0, .run 1 0 0 0, .run 1 0 0 0, .run 1 0 0 0, .init true,
    .call (.addBlock none 0), .run 3 0 0 0, .run 3 0 0 0, .run 3 0 0 0, .run 3 0 0 0, .run 3 0 0 0,
    .run 0 0 0 0, .run 0 0 0 0, .run 2 0 0 0, .run 2 0 0 0, .run 0 0 0 0, .run 0 0 0 0,
    .run 0 0 0 0, .run 0 0 0 0, .run 0 0 0 0, .run 0 0 0 0, .run 0 0 0 0, .run 2 0 0 0]

/-- **Two daemons can take one block too many.** -/
theorem exists_two_daemons : ∃ m m', Run.exec (Program.step plainHash) fresh twoDaemonsEvents =
    some m ∧ m.Daemon 0 ∧ m.Daemon 2 ∧ m.step plainHash (.run 2 0 0 0) = some m' ∧
      m'.crash = some .frontOfEmpty := by
  have h : ((Run.exec (Program.step plainHash) fresh twoDaemonsEvents).bind fun m ↦
      (m.step plainHash (.run 2 0 0 0)).map fun m' ↦
        ((m.place 0).worker, (m.place 2).worker, m'.crash)) =
          some (some .daemon, some .daemon, some .frontOfEmpty) := by decide
  obtain ⟨m, hm, h⟩ := Option.bind_eq_some_iff.mp h
  obtain ⟨m', hm', h⟩ := Option.map_eq_some_iff.mp h
  simp only [Prod.mk.injEq] at h
  exact ⟨m, m', hm, h.1, h.2.1, hm', h.2.2⟩

end Program

/-! ## The attached blocks alone -/

/-- What is attached stays attached and the same. -/
theorem Linked.core_frame (h : Linked s.core) (hmap : ∀ k : ℤ, t.blockMap[k]? = s.blockMap[k]?)
    (hheap : ∀ p, s.Attached p → t.heap p = s.heap p) (hbrk : s.brk ≤ t.brk) :
    Linked t.core := by
  refine h.transfer (K := fun _ ↦ True) rfl rfl (fun k p ↦ ?_) (fun _ _ ↦ trivial)
    (fun _ _ _ _ _ ↦ trivial) (fun p hp ↦ ?_) (fun p q hp _ hm hq ↦ ?_) hbrk List.nodup_nil
    fun p hp ↦ by cases hp
  · rw [and_iff_left trivial]
    exact iff_of_eq (congrArg (· = some p) (hmap k))
  · exact ⟨congrArg Block.index (hheap p hp), congrArg Block.next (hheap p hp)⟩
  · have hq' : s.Attached q := h.next_attached hp hq
    change (t.heap p).isInLongest = true at hm
    rw [hheap p hp] at hm
    change (t.heap q).isInLongest = true
    rw [hheap q hq']
    exact h.marks p q hp hm hq

/-- What `addAndHash` leaves of the block it was given, before it inserts it. -/
structure Prepared (s : Chain) (p : BlockPtr) (linked : Bool) (t : Chain) : Prop where
  /-- The attached blocks. -/
  map : t.blockMap = s.blockMap
  /-- The pending blocks. -/
  queue : t.blockQueue = s.blockQueue
  /-- The next free address. -/
  brk : t.brk = s.brk
  /-- The other blocks. -/
  others : ∀ q, q ≠ p → t.heap q = s.heap q
  /-- The block's number. -/
  index : (t.heap p).index = (s.heap p).index
  /-- Its mark. -/
  mark : (t.heap p).isInLongest = (s.heap p).isInLongest
  /-- If it goes on, its father was attached. -/
  next : linked = true → ∃ (k : ℤ) (f : BlockPtr), s.blockMap[k]? = some f ∧ t.next p = some f

theorem linkBlock_prepared (H : HashLib) (s : Chain) (p : BlockPtr) (f : ℤ) (seed : ℕ) :
    Prepared s p (linkBlock H s p f seed).1 (linkBlock H s p f seed).2 := by
  have hheap : ∀ (u : Chain) (g : Block → Block) q, q ≠ p → (u.modify p g).heap q = u.heap q :=
    fun u g q hq ↦ Function.update_of_ne hq ..
  have hself : ∀ (u : Chain) (g : Block → Block), (u.modify p g).heap p = g (u.heap p) :=
    fun u g ↦ Function.update_self ..
  rw [linkBlock]
  split
  · dsimp only
    refine ⟨rfl, rfl, rfl, fun q hq ↦ hheap _ _ q hq, ?_, ?_, by simp⟩
    · rw [hself]
    · rw [hself]
  · rename_i g hg
    refine ⟨rfl, rfl, rfl, fun q hq ↦ ?_, ?_, ?_, fun _ ↦ ⟨f, g, hg, ?_⟩⟩
    · rw [hheap _ _ q hq, hheap _ _ q hq]
    · rw [hself, hself]
    · rw [hself, hself]
    · rw [Chain.next, hself]

theorem Prepared.trans {u : Chain} {a b : Bool} (h : Prepared s p a u) (h' : Prepared u p b t) :
    Prepared s p b t :=
  ⟨h'.map.trans h.map, h'.queue.trans h.queue, h'.brk.trans h.brk,
    fun q hq ↦ (h'.others q hq).trans (h.others q hq), h'.index.trans h.index,
    h'.mark.trans h.mark, fun hb ↦ h.map ▸ h'.next hb⟩

theorem prepareBlock_prepared (H : HashLib) (s : Chain) (p : BlockPtr) (pick seed : ℕ) :
    Prepared s p (prepareBlock H s p pick seed).2.1 (prepareBlock H s p pick seed).2.2 := by
  have hnoted : Prepared s p false { s with isInDaemon := (s.heap p).index } :=
    ⟨rfl, rfl, rfl, fun _ _ ↦ rfl, rfl, rfl, by simp⟩
  have hdepth : ∀ (u : Chain) (d : ℤ),
      Prepared u p false (u.modify p fun b ↦ { b with depth := d }) :=
    fun u d ↦ ⟨rfl, rfl, rfl, fun q hq ↦ Function.update_of_ne hq .., by simp [Chain.modify],
      by simp [Chain.modify], by simp⟩
  rw [prepareBlock]
  dsimp only
  split
  · split
    · exact hnoted
    · split
      · exact hnoted
      · exact (hnoted.trans (hdepth _ _)).trans (linkBlock_prepared H _ p _ seed)
  · exact hnoted.trans (linkBlock_prepared H _ p _ seed)

theorem getElem?_insertBlock (s : Chain) (p : BlockPtr) (k : ℤ) :
    (insertBlock s p).blockMap[k]? =
      if (s.heap p).index = k ∧ (s.heap p).index ∉ s.blockMap then some p else s.blockMap[k]? := by
  simp only [insertBlock, Std.TreeMap.getElem?_insertIfNew, Std.compare_eq_iff_eq]

/-! ## What holds as long as nothing goes wrong -/

/-- The block a worker has in hand, which is linked to its father and not inserted yet. -/
def Place.block : Place → Option BlockPtr
  | .lockMap _ block | .insert _ block => some block
  | _ => none

/-- The number a call of `add_block` has chosen. -/
def Place.idx : Place → Option ℤ
  | .lockFather _ _ idx | .father _ _ idx | .unlockFather _ _ idx _ | .create _ _ idx _ => some idx
  | _ => none

/-- A block that was made and is not attached. -/
structure Loose (s : Chain) (p : BlockPtr) : Prop where
  /-- It is not attached. -/
  detached : ¬s.Attached p
  /-- It was made. -/
  lt_brk : p < s.brk
  /-- It is not marked. -/
  unmarked : (s.heap p).isInLongest = false
  /-- Its number is not negative. -/
  nonneg : 0 ≤ (s.heap p).index

/-- The blocks of a chain with these threads hang together. -/
structure Intact (s : Chain) (place : ThreadId → Place) : Prop where
  /-- The attached blocks of an open chain. -/
  linked : s.isInitiated = true → Linked s.core
  /-- No block is attached to a chain that is not open. -/
  shut : s.isInitiated = false → s.blockMap = ∅
  /-- A block is pending once. -/
  queue_nodup : s.blockQueue.Nodup
  /-- A pending block is loose. -/
  pending : ∀ p ∈ s.blockQueue, Loose s p
  /-- A block in hand is loose, is not pending, has a father, and is in one worker's hand. -/
  hand : ∀ i p, (place i).block = some p → Loose s p ∧ p ∉ s.blockQueue ∧
    (∃ f, s.next p = some f ∧ f ≠ p) ∧ ∀ j, (place j).block = some p → j = i
  /-- Numbers are not negative. -/
  idx : ∀ i k, (place i).idx = some k → 0 ≤ k

namespace Intact

variable {place : ThreadId → Place} {i : ThreadId} {l : Place}

/-- A thread that goes on, with the block it had in hand or with none. -/
theorem move (h : Intact s place) (hb : ∀ p, l.block = some p → (place i).block = some p)
    (hk : ∀ k, l.idx = some k → 0 ≤ k) : Intact s (Function.update place i l) := by
  have hold : ∀ j p, (Function.update place i l j).block = some p → (place j).block = some p := by
    intro j p hj
    by_cases hji : j = i
    · subst hji
      exact hb p (by rwa [Function.update_self] at hj)
    · rwa [Function.update_of_ne hji] at hj
  refine ⟨h.linked, h.shut, h.queue_nodup, h.pending, fun j p hj ↦ ?_, fun j k hj ↦ ?_⟩
  · obtain ⟨h1, h2, h3, h4⟩ := h.hand j p (hold j p hj)
    exact ⟨h1, h2, h3, fun j' hj' ↦ h4 j' (hold j' p hj')⟩
  · by_cases hji : j = i
    · subst hji
      exact hk k (by rwa [Function.update_self] at hj)
    · rw [Function.update_of_ne hji] at hj
      exact h.idx j k hj

/-- A change that leaves the loose blocks alone. -/
theorem change (h : Intact s place) (hlinked : t.isInitiated = true → Linked t.core)
    (hshut : t.isInitiated = false → t.blockMap = ∅) (hq : t.blockQueue.Perm s.blockQueue)
    (hloose : ∀ p, Loose s p → Loose t p ∧ t.next p = s.next p) : Intact t place := by
  refine ⟨hlinked, hshut, hq.nodup_iff.mpr h.queue_nodup,
    fun p hp ↦ (hloose p (h.pending p (hq.mem_iff.mp hp))).1, fun i p hi ↦ ?_, h.idx⟩
  obtain ⟨h1, h2, h3, h4⟩ := h.hand i p hi
  obtain ⟨h1', h5⟩ := hloose p h1
  exact ⟨h1', fun hp ↦ h2 (hq.mem_iff.mp hp), h5 ▸ h3, h4⟩

/-- A change of nothing but flags, counters, and the list of numbers. -/
theorem congr (h : Intact s place) (hheap : t.heap = s.heap) (hbrk : t.brk = s.brk)
    (hmap : t.blockMap = s.blockMap) (hq : t.blockQueue.Perm s.blockQueue)
    (hinit : t.isInitiated = s.isInitiated) : Intact t place := by
  refine h.change (fun hi ↦ ?_) (fun hi ↦ ?_) hq fun p hp ↦ ⟨⟨?_, ?_, ?_, ?_⟩, ?_⟩
  · exact (h.linked (hinit ▸ hi)).core_frame (fun k ↦ by rw [hmap]) (fun p _ ↦ by rw [hheap])
      hbrk.ge
  · rw [hmap, h.shut (hinit ▸ hi)]
  · rw [Chain.Attached, hmap, hheap]
    exact hp.detached
  · exact hbrk ▸ hp.lt_brk
  · rw [hheap]
    exact hp.unmarked
  · rw [hheap]
    exact hp.nonneg
  · rw [Chain.next, hheap, Chain.next]

/-- Where a block is attached, the chain is open. -/
theorem initiated_of_map (h : Intact s place) (hk : s.blockMap[k]? = some p) :
    s.isInitiated = true := by
  by_contra hno
  rw [h.shut (by simpa using hno)] at hk
  simp at hk

theorem attached_of_map (h : Intact s place) (hk : s.blockMap[k]? = some p) : s.Attached p :=
  (h.linked (h.initiated_of_map hk)).attached hk

/-- `init_blockchain`. -/
theorem opened (h : Intact s place) (hno : s.isInitiated = false) : Intact s.opened place := by
  have hmap := h.shut hno
  have hlinked : Linked s.opened.core := Linked.init (s := s.core) hmap rfl rfl
  have hget : ∀ (k : ℤ) p, s.opened.blockMap[k]? = some p → p = s.brk := fun k p hk ↦ by
    change (s.blockMap.insertIfNew 0 s.brk)[k]? = some p at hk
    rw [hmap, Std.TreeMap.getElem?_insertIfNew] at hk
    split at hk
    · exact (Option.some.inj hk).symm
    · simp at hk
  have hheap : ∀ p, p < s.brk → s.opened.heap p = s.heap p :=
    fun p hp ↦ Function.update_of_ne hp.ne ..
  refine h.change (fun _ ↦ hlinked) (fun hi ↦ by cases hi) (.refl _) fun p hp ↦
    ⟨⟨fun ha ↦ hp.lt_brk.ne (hget _ p ha), hp.lt_brk.trans (Nat.lt_succ_self _), ?_, ?_⟩, ?_⟩
  · rw [hheap p hp.lt_brk]
    exact hp.unmarked
  · rw [hheap p hp.lt_brk]
    exact hp.nonneg
  · rw [Chain.next, hheap p hp.lt_brk, Chain.next]

/-- The end of a closing thread. -/
theorem reset (h : Intact s place) : Intact (resetChain s) place :=
  h.change (fun hi ↦ by cases hi) (fun _ ↦ rfl) (.refl _) fun p hp ↦
    ⟨⟨fun ha ↦ by simp [Chain.Attached, resetChain] at ha, hp.lt_brk, hp.unmarked, hp.nonneg⟩, rfl⟩

/-- A block that is not queued and in nobody's hand changes, and goes to at most one worker's. -/
theorem handOver (h : Intact s place) (hqn : t.blockQueue.Nodup)
    (hqueue : ∀ q ∈ t.blockQueue, q ∈ s.blockQueue ∧ q ≠ p) (hp : Loose s p)
    (hfree : ∀ j, (place j).block ≠ some p) (hmap : t.blockMap = s.blockMap)
    (hinit : t.isInitiated = s.isInitiated) (hbrk : t.brk = s.brk)
    (hothers : ∀ q, q ≠ p → t.heap q = s.heap q) (hindex : (t.heap p).index = (s.heap p).index)
    (hmark : (t.heap p).isInLongest = (s.heap p).isInLongest)
    (hl : ∀ q, l.block = some q → q = p ∧ ∃ f, t.next p = some f ∧ f ≠ p) (hk : l.idx = none) :
    Intact t (Function.update place i l) := by
  have hsame : ∀ q, s.Attached q → t.heap q = s.heap q := fun q hq ↦
    hothers q fun hqp ↦ hp.detached (hqp ▸ hq)
  have hloose : ∀ q, Loose s q → Loose t q := by
    intro q hq
    have hfields : (t.heap q).index = (s.heap q).index ∧
        (t.heap q).isInLongest = (s.heap q).isInLongest := by
      by_cases hqp : q = p
      · exact hqp ▸ ⟨hindex, hmark⟩
      · rw [hothers q hqp]
        exact ⟨rfl, rfl⟩
    refine ⟨?_, hbrk ▸ hq.lt_brk, hfields.2.trans hq.unmarked, hfields.1 ▸ hq.nonneg⟩
    rw [Chain.Attached, hmap, hfields.1]
    exact hq.detached
  have hplace : ∀ j q, (Function.update place i l j).block = some q →
      (j = i ∧ l.block = some q) ∨ (j ≠ i ∧ (place j).block = some q) := by
    intro j q hj
    by_cases hji : j = i
    · subst hji
      exact .inl ⟨rfl, by rwa [Function.update_self] at hj⟩
    · exact .inr ⟨hji, by rwa [Function.update_of_ne hji] at hj⟩
  refine ⟨fun hi ↦ ?_, fun hi ↦ ?_, hqn, fun q hq ↦ hloose q (h.pending q (hqueue q hq).1),
    fun j q hj ↦ ?_, fun j k hj ↦ ?_⟩
  · exact (h.linked (hinit ▸ hi)).core_frame (fun k ↦ by rw [hmap]) hsame hbrk.ge
  · rw [hmap, h.shut (hinit ▸ hi)]
  · rcases hplace j q hj with ⟨rfl, hlq⟩ | ⟨hji, hjq⟩
    · obtain ⟨rfl, hnext⟩ := hl q hlq
      refine ⟨hloose q hp, fun hq ↦ (hqueue q hq).2 rfl, hnext, fun j' hj' ↦ ?_⟩
      rcases hplace j' q hj' with ⟨rfl, -⟩ | ⟨-, hj'⟩
      · rfl
      · exact absurd hj' (hfree j')
    · obtain ⟨h1, h2, h3, h4⟩ := h.hand j q hjq
      have hqp : q ≠ p := fun hqp ↦ hfree j (hqp ▸ hjq)
      rw [Chain.next, hothers q hqp]
      refine ⟨hloose q h1, fun hq ↦ h2 (hqueue q hq).1, h3, fun j' hj' ↦ ?_⟩
      rcases hplace j' q hj' with ⟨-, hlq⟩ | ⟨-, hj'⟩
      · exact absurd (hl q hlq).1 hqp
      · exact h4 j' hj'
  · by_cases hji : j = i
    · rw [hji, Function.update_self, hk] at hj
      cases hj
    · rw [Function.update_of_ne hji] at hj
      exact h.idx j k hj

/-- **A worker takes the front block**, and goes on with it if it is linked to a father. -/
theorem take {rest : List BlockPtr} {linked : Bool} (h : Intact s place)
    (hq : s.blockQueue = p :: rest) (hprep : Prepared { s with blockQueue := rest } p linked t)
    (hinit : t.isInitiated = s.isInitiated)
    (hl : ∀ q, l.block = some q → q = p ∧ linked = true) (hk : l.idx = none) :
    Intact t (Function.update place i l) := by
  have hmem : p ∈ s.blockQueue := by rw [hq]; exact List.mem_cons_self
  have hnd := h.queue_nodup
  rw [hq, List.nodup_cons] at hnd
  refine h.handOver (hprep.queue.symm ▸ hnd.2) (fun q hqr ↦ ?_) (h.pending p hmem)
    (fun j hj ↦ (h.hand j p hj).2.1 hmem) hprep.map hinit hprep.brk hprep.others hprep.index
    hprep.mark (fun q hlq ↦ ?_) hk
  · rw [hprep.queue] at hqr
    refine ⟨by rw [hq]; exact List.mem_cons_of_mem _ hqr, ?_⟩
    rintro rfl
    exact hnd.1 hqr
  · obtain ⟨rfl, hlinked⟩ := hl q hlq
    obtain ⟨k, f, hf, hnext⟩ := hprep.next hlinked
    refine ⟨rfl, f, hnext, ?_⟩
    rintro rfl
    exact (h.pending f hmem).detached (h.attached_of_map hf)

/-- **A worker inserts the block it has in hand**, whose father is still attached. -/
theorem insert (h : Intact s place) (hopen : s.isInitiated = true) (hp : (place i).block = some p)
    (hfather : (s.heap p).index ∉ s.blockMap → ∀ f, s.next p = some f → s.Attached f)
    (hl : l.block = none) (hk : l.idx = none) :
    Intact (insertBlock s p) (Function.update place i l) := by
  have hmoved : Intact s (Function.update place i l) :=
    h.move (fun q hq ↦ by rw [hl] at hq; cases hq) fun k hk' ↦ by rw [hk] at hk'; cases hk'
  obtain ⟨hloose, hpq, ⟨f, hf, -⟩, hone⟩ := h.hand i p hp
  have hget := getElem?_insertBlock s p
  have hlinked : Linked (insertBlock s p).core := by
    by_cases hnew : (s.heap p).index ∈ s.blockMap
    · exact (h.linked hopen).core_frame (fun k ↦ by rw [hget, if_neg fun hk ↦ hk.2 hnew])
        (fun _ _ ↦ rfl) le_rfl
    · exact (h.linked hopen).attach rfl rfl hnew rfl hloose.detached hloose.nonneg
        (hfather hnew f hf) (fun _ _ ↦ rfl) rfl hf hloose.unmarked hloose.lt_brk le_rfl
        List.nodup_nil List.not_mem_nil fun r hr ↦ by cases hr
  have hkeep : ∀ q, q ≠ p → Loose s q → Loose (insertBlock s p) q := by
    refine fun q hqp hq ↦ ⟨fun ha ↦ ?_, hq.lt_brk, hq.unmarked, hq.nonneg⟩
    rw [Chain.Attached, hget] at ha
    split at ha
    · exact hqp (Option.some.inj ha).symm
    · exact hq.detached ha
  have hshut : (insertBlock s p).isInitiated = false → (insertBlock s p).blockMap = ∅ :=
    fun hi ↦ absurd (hopen.symm.trans hi) (by simp)
  refine ⟨fun _ ↦ hlinked, hshut, h.queue_nodup,
    fun q hq ↦ hkeep q (fun hqp ↦ hpq (hqp ▸ hq)) (h.pending q hq), fun j q hj ↦ ?_, hmoved.idx⟩
  obtain ⟨h1, h2, h3, h4⟩ := hmoved.hand j q hj
  refine ⟨hkeep q ?_ h1, h2, h3, h4⟩
  rintro rfl
  by_cases hji : j = i
  · rw [hji, Function.update_self, hl] at hj
    cases hj
  · rw [Function.update_of_ne hji] at hj
    exact hji (hone j hj)

/-- **The sweep**, while the genesis block is marked. -/
theorem sweep (h : Intact s place)
    (hg : ∀ g, s.blockMap[(0 : ℤ)]? = some g → (s.heap g).isInLongest = true) :
    Intact (sweepChain s) place := by
  have hget : ∀ (k : ℤ) p, (sweepChain s).blockMap[k]? = some p ↔
      s.blockMap[k]? = some p ∧ (s.heap p).isInLongest = true :=
    fun _ _ ↦ getElem?_sweepMap_toList
  refine h.change (fun hi ↦ ?_) (fun hi ↦ ?_) (.refl _) fun p hp ↦
    ⟨⟨fun ha ↦ hp.detached ((hget _ p).mp ha).1, hp.lt_brk, hp.unmarked, hp.nonneg⟩, rfl⟩
  · have hlinked := h.linked hi
    exact hlinked.transfer (K := fun p ↦ (s.heap p).isInLongest = true) rfl rfl hget hg
      hlinked.marks (fun _ _ ↦ ⟨rfl, rfl⟩) (fun p q hp hm _ hq ↦ hlinked.marks p q hp hm hq) le_rfl
      List.nodup_nil fun p hp ↦ by cases hp
  · rw [sweepChain, h.shut hi]
    rfl

/-- Marks are set on a path, or taken off. -/
theorem mark {b : Bool} {ps v} (h : Intact s place) (hps : b = true → ∀ q ∈ ps, s.Attached q)
    (hlinked : s.isInitiated = true → Linked (s.mark b ps).core) :
    Intact { s.mark b ps with vecIndex := v } place := by
  refine h.change (fun hi ↦ ?_) (fun hi ↦ h.shut hi) (.refl _) fun p hp ↦
    ⟨⟨?_, hp.lt_brk, ?_, ?_⟩, ?_⟩
  · exact (hlinked hi).core_frame (fun _ ↦ rfl) (fun _ _ ↦ rfl) le_rfl
  · change ¬s.blockMap[((s.mark b ps).heap p).index]? = some p
    rw [mark_heap]
    exact hp.detached
  · change ((s.mark b ps).heap p).isInLongest = false
    rw [mark_heap]
    cases b with
    | false =>
      dsimp only
      rw [hp.unmarked, ite_self]
    | true => rw [if_neg fun hmem ↦ hp.detached (hps rfl p hmem), hp.unmarked]
  · change 0 ≤ ((s.mark b ps).heap p).index
    rw [mark_heap]
    exact hp.nonneg
  · change (s.mark b ps).next p = s.next p
    rw [Chain.next, mark_heap, Chain.next]

/-- **The marks are set**, and the loop that sets them comes to an end. -/
theorem markChain (h : Intact s place) (hopen : s.isInitiated = true) (pick : ℕ) (pastEnd : ℤ) :
    Intact (markChain s pick pastEnd).2 place := by
  obtain ⟨p, l, -, hl, hall, heq⟩ := (h.linked hopen).markChain_cases pick pastEnd
  rw [heq]
  exact h.mark (fun _ ↦ hall) fun hi ↦ (h.linked hi).mark_path hl hall

/-- The marks are taken off. -/
theorem unmarkChain (h : Intact s place) : Intact (unmarkChain s) place := by
  rw [Blockchain.unmarkChain, unmark_eq]
  refine h.mark (v := s.vecIndex) (by simp) fun hi ↦ ?_
  have hoff : ∀ p, s.Attached p →
      ((s.mark false (s.blockMap.toList.map Prod.snd)).heap p).isInLongest = false := by
    intro p hp
    rw [mark_heap, if_pos (List.mem_map.mpr ⟨_, (mem_toList_iff _).mpr hp, rfl⟩)]
  refine (h.linked hi).transfer (K := fun _ ↦ True) rfl rfl (fun _ _ ↦ (and_iff_left trivial).symm)
    (fun _ _ ↦ trivial) (fun _ _ _ _ _ ↦ trivial) (fun p _ ↦ ?_) (fun p q hp _ hm _ ↦ ?_) le_rfl
    List.nodup_nil fun p hp ↦ by cases hp
  · change ((s.mark false _).heap p).index = (s.heap p).index ∧ (s.mark false _).next p = s.next p
    rw [Chain.next, mark_heap]
    exact ⟨rfl, rfl⟩
  · exact absurd ((hoff p hp).symm.trans hm) (by simp)

/-- `to_longest` changes a pending block. -/
theorem toLongest (h : Intact s place) (k : ℤ) : Intact (toLongest s k).2 place := by
  rcases toLongest_cases s k with heq | ⟨p, hp, heq⟩
  · rwa [heq]
  · rw [heq]
    have hothers : ∀ q, q ≠ p →
        (s.modify p fun b ↦ { b with attachToLongest := true }).heap q = s.heap q :=
      fun q hqp ↦ Function.update_of_ne hqp ..
    have hheap : ∀ q, ∃ b, (s.modify p fun b ↦ { b with attachToLongest := true }).heap q =
        { s.heap q with attachToLongest := b } := by
      intro q
      by_cases hqp : q = p
      · exact ⟨true, hqp ▸ Function.update_self ..⟩
      · exact ⟨(s.heap q).attachToLongest, hothers q hqp⟩
    refine h.change (fun hi ↦ (h.linked hi).core_frame (fun _ ↦ rfl) (fun q hq ↦ ?_) le_rfl) h.shut
      (.refl _) fun q hq ↦ ?_
    · refine hothers q fun hqp ↦ (h.pending p hp).detached (hqp ▸ hq)
    · obtain ⟨b, hb⟩ := hheap q
      refine ⟨⟨?_, hq.lt_brk, ?_, ?_⟩, ?_⟩
      · rw [Chain.Attached, hb]
        exact hq.detached
      · rw [hb]
        exact hq.unmarked
      · rw [hb]
        exact hq.nonneg
      · rw [Chain.next, hb, Chain.next]

/-- A block is made and queued. -/
theorem created (h : Intact s place) {idx : ℤ} (hidx : 0 ≤ idx) (data : Option (List UInt8))
    (length f d : ℤ) : Intact (s.created data length idx f d) place := by
  have hlt : ∀ q, q ∈ s.blockQueue ∨ (∃ j, (place j).block = some q) → q < s.brk := by
    rintro q (hq | ⟨j, hj⟩)
    · exact (h.pending q hq).lt_brk
    · exact (h.hand j q hj).1.lt_brk
  have hfresh : ¬s.Attached s.brk := fun ha ↦
    ((h.linked (h.initiated_of_map ha)).lt_brk s.brk ha).false
  have hheap : ∀ q, q < s.brk → (s.created data length idx f d).heap q = s.heap q :=
    fun q hq ↦ created_heap_of_lt _ _ _ _ _ hq
  have hloose : ∀ q, q < s.brk → Loose s q → Loose (s.created data length idx f d) q := by
    intro q hq hl
    refine ⟨?_, hl.lt_brk.trans (Nat.lt_succ_self _), ?_, ?_⟩
    · rw [Chain.Attached, hheap q hq]
      exact hl.detached
    · exact (congrArg Block.isInLongest (hheap q hq)).trans hl.unmarked
    · exact hl.nonneg.trans_eq (congrArg Block.index (hheap q hq)).symm
  refine ⟨fun hi ↦ ?_, h.shut, ?_, fun q hq ↦ ?_, fun j q hj ↦ ?_, h.idx⟩
  · exact (h.linked hi).core_frame (fun _ ↦ rfl)
      (fun q hq ↦ hheap q ((h.linked hi).lt_brk q hq)) (Nat.le_succ _)
  · refine List.nodup_append.mpr ⟨h.queue_nodup, List.nodup_singleton _, fun q hq r hr ↦ ?_⟩
    rw [List.mem_singleton.mp hr]
    exact (hlt q (.inl hq)).ne
  · rcases List.mem_append.mp hq with hold | hq
    · exact hloose q (hlt q (.inl hold)) (h.pending q hold)
    · cases List.mem_singleton.mp hq
      refine ⟨fun ha ↦ hfresh (h.attached_of_map ha), Nat.lt_succ_self _, ?_, ?_⟩
      · rw [created_heap_self]
        rfl
      · rw [created_heap_self]
        exact hidx
  · obtain ⟨h1, h2, h3, h4⟩ := h.hand j q hj
    have hqb := hlt q (.inr ⟨j, hj⟩)
    refine ⟨hloose q hqb h1, fun hq ↦ ?_, ?_, h4⟩
    · rcases List.mem_append.mp hq with hold | hq
      · exact h2 hold
      · exact hqb.ne (List.mem_singleton.mp hq)
    · rw [Chain.next, hheap q hqb]
      exact h3

/-- `add_block` makes a block, or ends with an exception. -/
theorem createBlock (h : Intact s place) {idx : ℤ} (hidx : 0 ≤ idx) (data : Option (List UInt8))
    (length fatherIdx : ℤ) : Intact (createBlock s data length idx fatherIdx).2 place := by
  cases hf : s.blockMap[fatherIdx]? with
  | none =>
    rw [Blockchain.createBlock, hf]
    exact h
  | some father =>
    rw [createBlock_eq data length idx hf]
    split
    · exact h
    · exact h.created hidx data length fatherIdx _

end Intact

/-! ## When the attached blocks are a tree -/

/-- **The attached blocks are a tree**: the way up from each of them leads through attached blocks
to the genesis block, which is there as long as the chain is open. -/
structure Chain.Tree (s : Chain) : Prop where
  /-- The genesis block. -/
  genesis : s.isInitiated = true → ∃ g, s.blockMap[(0 : ℤ)]? = some g ∧ s.next g = none
  /-- The way up. -/
  rooted : ∀ p, s.Attached p → ∃ l g, RootPath s.next p l ∧ (∀ q ∈ l, s.Attached q) ∧
    l.getLast? = some g ∧ s.blockMap[(0 : ℤ)]? = some g

theorem Intact.tree {place : ThreadId → Place} (h : Intact s place) : s.Tree := by
  refine ⟨fun hi ↦ (h.linked hi).genesis, fun p hp ↦ ?_⟩
  have hlinked := h.linked (h.initiated_of_map hp)
  obtain ⟨l, hl, hall⟩ := hlinked.rooted p hp
  obtain ⟨r, hr, hrn⟩ := hl.exists_getLast
  have hra : s.Attached r := hall r (List.mem_of_mem_getLast? hr)
  have hindex : (s.heap r).index = 0 := hlinked.null r hra hrn
  refine ⟨l, r, hl, hall, hr, ?_⟩
  rwa [Chain.Attached, hindex] at hra

namespace Program

variable {m m' : Program} {i : ThreadId} {l : Place} {a : Mutex} {e : ProgramEvent}

/-- A worker inserts a block, unless its number is taken, only if its father is still attached, and
`prune_chain` sweeps only while the genesis block is marked. -/
def InTime (m : Program) : ProgramEvent → Prop
  | .run i _ _ _ =>
    (∀ w b f, m.place i = .insert w b → (m.chain.heap b).index ∉ m.chain.blockMap →
      m.chain.next b = some f → m.chain.Attached f) ∧
    ∀ g, m.place i = .sweep → m.chain.blockMap[(0 : ℤ)]? = some g →
      (m.chain.heap g).isInLongest = true
  | _ => True

/-- The blocks hang together, and the threads' blocks with them. -/
def Sound (m : Program) : Prop := Intact m.chain m.place

/-- A thread that leaves an intact chain behind and has no block in hand. -/
theorem Sound.leave {s : Chain} (hs : Intact s m.place) (hb : l.block = none)
    (hk : ∀ k, l.idx = some k → 0 ≤ k) : (m.leave i s l).Sound :=
  hs.move (fun p hp ↦ by rw [hb] at hp; cases hp) hk

theorem Sound.lock (h : m.Sound) (hst : m.lock i a l = some m')
    (hb : ∀ p, l.block = some p → (m.place i).block = some p) (hk : ∀ k, l.idx = some k → 0 ≤ k) :
    m'.Sound := by
  rw [Program.lock] at hst
  split at hst
  · exact Option.some.inj hst ▸ h
  · split at hst
    · cases hst
    · exact Option.some.inj hst ▸ h.move hb hk

theorem Sound.take {w : Worker} (h : m.Sound) : (m.take i H w pick seed).Sound := by
  unfold Program.take
  cases hq : m.chain.blockQueue with
  | nil =>
    cases w with
    | daemon => exact h
    | closer => exact .leave h rfl fun k hk ↦ by cases hk
  | cons p rest =>
    simp only [List.head?_cons, popBlock_head hq]
    have hprep := prepareBlock_prepared H { m.chain with blockQueue := rest } p pick seed
    have hflags := sameFlags_prepareBlock H { m.chain with blockQueue := rest } p pick seed
    generalize prepareBlock H _ p pick seed = r at hprep hflags
    obtain ⟨x, linked, t⟩ := r
    cases x with
    | ret v =>
      cases linked with
      | true =>
        exact Intact.take h hq hprep hflags.initiated
          (fun q hq ↦ ⟨(Option.some.inj hq).symm, rfl⟩) rfl
      | false => exact Intact.take h hq hprep hflags.initiated (fun q hq ↦ by cases hq) rfl
    | _ => exact h

/-- A thread that holds a mutex runs while the chain is open. -/
theorem Locking.open_of_holds (h : m.Locking) (ha : (m.place i).holds a = true) :
    m.chain.isInitiated = true := by
  rw [← h.mutexes]
  by_contra hno
  have hown := (h.owner a i).mpr ha
  rw [h.free (by simpa using hno)] at hown
  cases hown

theorem Sound.runStep (h : m.Sound) (hm : m.Locking) (hok : m.InTime (.run i pick seed pastEnd))
    (hst : m.runStep i H pick seed pastEnd = some m') : m'.Sound := by
  have hgo : ∀ {l}, l.block = none → (∀ k, l.idx = some k → 0 ≤ k) → (m.goto i l).Sound :=
    fun hb hk ↦ .leave h hb hk
  rw [Program.runStep] at hst
  cases hp : m.place i with
  | unborn | ended => simp [hp] at hst
  | head | test =>
    simp only [hp, Option.some.injEq] at hst
    rw [← hst]
    split <;> exact hgo rfl fun k hk ↦ by cases hk
  | lockQueue w =>
    simp only [hp] at hst
    exact h.lock hst (fun p hp ↦ by cases hp) fun k hk ↦ by cases hk
  | take w =>
    simp only [hp, Option.some.injEq] at hst
    exact hst ▸ h.take
  | lockMap w block =>
    simp only [hp] at hst
    exact h.lock hst (fun p hb ↦ by rwa [hp]) fun k hk ↦ by cases hk
  | insert w block =>
    simp only [hp, Option.some.injEq] at hst
    have hopen := hm.open_of_holds (i := i) (a := .map) (by rw [hp]; rfl)
    exact hst ▸ Intact.insert h hopen (by rw [hp]; rfl) (fun hnew f hf ↦ hok.1 w block f hp hnew hf)
      rfl rfl
  | unlockMap w =>
    simp only [hp, Option.some.injEq] at hst
    exact hst ▸ hgo rfl fun k hk ↦ by cases hk
  | hashed w =>
    have hcount := Intact.congr h (t := { m.chain with sizeCounter := m.chain.sizeCounter + 1 }) rfl
      rfl rfl (.refl _) rfl
    cases w with
    | daemon =>
      simp only [hp, Option.some.injEq] at hst
      exact hst ▸ .leave hcount rfl fun k hk ↦ by cases hk
    | closer =>
      simp only [hp, Option.some.injEq] at hst
      exact hst ▸ hgo rfl fun k hk ↦ by cases hk
  | unlockQueue w =>
    cases w
    all_goals
      simp only [hp, Option.some.injEq] at hst
      exact hst ▸ hgo rfl fun k hk ↦ by cases hk
  | reset =>
    simp only [hp] at hst
    split at hst
    · exact Option.some.inj hst ▸ h
    · exact Option.some.inj hst ▸ Sound.leave h.reset rfl fun k hk ↦ by cases hk
  | number data length =>
    simp only [hp] at hst
    split at hst
    · exact Option.some.inj hst ▸ hgo rfl fun k hk ↦ by cases hk
    · refine Option.some.inj hst ▸ .leave (h.congr rfl rfl rfl (.refl _) rfl) rfl fun k hk ↦ ?_
      exact Option.some.inj hk ▸ m.chain.minIdx_nonneg
  | lockFather data length idx =>
    simp only [hp] at hst
    exact h.lock hst (fun p hp ↦ by cases hp) fun k hk ↦ h.idx i k (by rw [hp]; exact hk)
  | father data length idx | unlockFather data length idx f =>
    simp only [hp, Option.some.injEq] at hst
    exact hst ▸ hgo rfl fun k hk ↦ h.idx i k (by rw [hp]; exact hk)
  | create data length idx f =>
    simp only [hp, Option.some.injEq] at hst
    have hidx := h.idx i idx (by rw [hp]; rfl)
    exact hst ▸ .leave (Intact.createBlock h hidx data length f) rfl fun k hk ↦ by cases hk
  | mark =>
    simp only [hp] at hst
    split at hst
    · exact Option.some.inj hst ▸ hgo rfl fun k hk ↦ by cases hk
    · rename_i hopen
      have hmark := Intact.markChain h (by simp_all) pick pastEnd
      generalize markChain m.chain pick pastEnd = r at hst hmark
      obtain ⟨x, s⟩ := r
      cases x with
      | diverges => exact Option.some.inj hst ▸ h
      | _ => exact Option.some.inj hst ▸ .leave hmark rfl fun k hk ↦ by cases hk
  | lockSweep =>
    simp only [hp] at hst
    exact h.lock hst (fun p hp ↦ by cases hp) fun k hk ↦ by cases hk
  | sweep =>
    simp only [hp, Option.some.injEq] at hst
    exact hst ▸ .leave (Intact.sweep h fun g ↦ hok.2 g hp) rfl fun k hk ↦ by cases hk
  | unlockSweep =>
    simp only [hp, Option.some.injEq] at hst
    exact hst ▸ hgo rfl fun k hk ↦ by cases hk
  | unmark =>
    simp only [hp, Option.some.injEq] at hst
    exact hst ▸ .leave (Intact.unmarkChain h) rfl fun k hk ↦ by cases hk
  | join =>
    simp only [hp, Option.some.injEq] at hst
    rw [← hst]
    split <;> exact hgo rfl fun k hk ↦ by cases hk
  | joining c =>
    simp only [hp] at hst
    split at hst
    · exact Option.some.inj hst ▸ hgo rfl fun k hk ↦ by cases hk
    · cases hst

/-- A new thread has no block in hand. -/
theorem Sound.create (h : m.Sound) (hb : l.block = none) (hk : l.idx = none) :
    (m.create l).Sound :=
  h.move (fun p hp ↦ by rw [hb] at hp; cases hp) fun k hk' ↦ by rw [hk] at hk'; cases hk'

/-- **The step lemma.** -/
theorem Sound.step (h : m.Sound) (hm : m.Locking) (hok : m.InTime e)
    (hst : m.step H e = some m') : m'.Sound := by
  rw [Program.step] at hst
  split at hst
  · cases hst
  cases e with
  | init created =>
    rcases init_cases hst with ⟨hno, rfl⟩ | ⟨b, rfl⟩
    · exact Intact.opened (h.create (l := .head) rfl rfl) hno
    · exact h.congr rfl rfl rfl (.refl _) rfl
  | close =>
    rcases close_cases hst with ⟨-, rfl⟩ | rfl
    · exact (h.create (l := .lockQueue .closer) rfl rfl).congr rfl rfl rfl (.refl _) rfl
    · exact h
  | toLongest k => exact Option.some.inj hst ▸ Intact.toLongest h k
  | attachNow k =>
    obtain ⟨q, hq, heq⟩ := attachNow_cases m.chain k
    rw [← Option.some.inj hst, Sound, heq]
    exact h.congr rfl rfl rfl hq rfl
  | call r =>
    rw [← Option.some.inj hst]
    exact h.create (by cases r <;> rfl) (by cases r <;> rfl)
  | run i pick seed pastEnd => exact h.runStep hm hok hst

theorem sound_fresh : fresh.Sound := by
  refine ⟨fun hi ↦ ?_, fun _ ↦ rfl, List.nodup_nil, fun p hp ↦ ?_, fun i p hp ↦ ?_, fun i k hk ↦ ?_⟩
  · cases hi
  · cases hp
  · cases hp
  · cases hk

/-- A step that comes too late is the end of the tree. -/
theorem Sound.inTime_of_tree (h : m.Sound) (hm : m.Locking) (hst : m.step H e = some m')
    (ht : m'.chain.Tree) : m.InTime e := by
  rw [Program.step] at hst
  split at hst
  · cases hst
  cases e with
  | run i pick seed pastEnd =>
    have hrun : m.runStep i H pick seed pastEnd = some m' := hst
    rw [Program.runStep] at hrun
    refine ⟨fun w b f hp hnew hf ↦ ?_, fun g hp hg ↦ ?_⟩
    · simp only [hp, Option.some.injEq] at hrun
      have hget : ∀ k : ℤ, m'.chain.blockMap[k]? =
          if (m.chain.heap b).index = k then some b else m.chain.blockMap[k]? := fun k ↦ by
        rw [← hrun]
        exact (getElem?_insertBlock m.chain b k).trans (by simp [hnew])
      have hheap : m'.chain.heap = m.chain.heap := by rw [← hrun]; rfl
      obtain ⟨-, -, ⟨f', hf', hne⟩, -⟩ := h.hand i b (by rw [hp]; rfl)
      have hff' : f' = f := Option.some.inj (hf'.symm.trans hf)
      have hb : m'.chain.Attached b := by rw [Chain.Attached, hget, hheap, if_pos rfl]
      obtain ⟨l, -, hl, hall, -⟩ := ht.rooted b hb
      have hfl : f ∈ l := hl.next_mem hl.mem_self (by rw [Chain.next, hheap]; exact hf)
      have hfa := hall f hfl
      rw [Chain.Attached, hget, hheap] at hfa
      split at hfa
      · exact absurd (Option.some.inj hfa).symm (hff' ▸ hne)
      · exact hfa
    · simp only [hp, Option.some.injEq] at hrun
      have hopen := hm.open_of_holds (i := i) (a := .map) (by rw [hp]; rfl)
      obtain ⟨g', hg', -⟩ := ht.genesis (by rw [← hrun]; exact hopen)
      have hkept : (sweepChain m.chain).blockMap[(0 : ℤ)]? = some g' := by
        rw [← hrun] at hg'
        exact hg'
      obtain ⟨hold, hmark⟩ := getElem?_sweepMap_toList.mp hkept
      rwa [Option.some.inj (hold.symm.trans hg)] at hmark
  | _ => trivial

/-- **When the attached blocks are a tree**: always, in exactly the runs in which no worker inserts
a block whose father was erased after it was looked up, and no `prune_chain` sweeps after another
one took its marks off. -/
theorem always_rooted_iff {es : List ProgramEvent} :
    Run.Always (Program.step H) (fun m ↦ m.chain.Tree) fresh es ↔
      Run.Meets (Program.step H) InTime fresh es :=
  Run.always_iff_meets (I := fun m ↦ m.Locking ∧ m.Sound)
    (fun _ _ _ hm hok hst ↦ ⟨hm.1.step hst, hm.2.step hm.1 hok hst⟩) (fun _ hm ↦ hm.2.tree)
    (fun _ _ _ hm hst ht ↦ hm.2.inTime_of_tree hm.1 hst ht) ⟨locking_fresh, sound_fresh⟩

/-- Two calls of `prune_chain`: the second one has made both its sweeps when the first one makes its
last. -/
def twoPrunesEvents : List ProgramEvent :=
  [.init true, .call .pruneChain, .call .pruneChain, .run 1 0 0 7, .run 2 0 0 7, .run 2 0 0 7,
    .run 2 0 0 7, .run 2 0 0 7, .run 2 0 0 7, .run 1 0 0 7, .run 1 0 0 7]

/-- **Two calls of `prune_chain` can leave no block at all.** -/
theorem exists_none_left : ∃ m, Run.exec (Program.step plainHash) fresh twoPrunesEvents = some m ∧
    m.chain.isInitiated = true ∧ m.chain.blockMap.isEmpty = true := by
  have h : (Run.exec (Program.step plainHash) fresh twoPrunesEvents).map (fun m ↦
      (m.chain.isInitiated, m.chain.blockMap.isEmpty)) = some (true, true) := by decide
  obtain ⟨m, hm, h⟩ := Option.map_eq_some_iff.mp h
  simp only [Prod.mk.injEq] at h
  exact ⟨m, hm, h⟩

end Program

end Blockchain
