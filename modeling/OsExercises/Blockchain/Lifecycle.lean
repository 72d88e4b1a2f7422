import OsExercises.Blockchain.Linked

/-!
# Opening, closing, and opening again

Here a run starts before `init_blockchain`, and the chain can be closed and opened any number of
times.  `close_chain` starts a closing thread, which takes one block after the other out of the
queue and in the end resets everything; there can be several of them, as `close_chain` may be called
again while the chain is being closed.

Three things are written down on the way, for the statements only: how many blocks were put into
`blockMap` since the chain was opened, which block `add_block` chose as the father of a block, and
whether `to_longest` has returned 0 for a block.

* `Lifecycle.Sound` is the invariant: an open chain is `Linked`, whether it is being closed or not,
  and a closed one is empty.
* `always_counted_iff` says in which runs `chain_size` counts the attached blocks.
-/

set_option autoImplicit false

namespace Blockchain

variable {H : HashLib} {s t : Chain} {p q r : BlockPtr} {k : ℤ} {pick seed : ℕ}

/-! ## The runs -/

/-- The chain, and what happened to it. -/
structure Lifecycle where
  /-- The global variables. -/
  chain : Chain
  /-- The number of closing threads. -/
  closers : ℕ
  /-- The number of blocks put into `blockMap` since the chain was opened. -/
  attached : ℕ
  /-- The block that `add_block` chose as a block's father. -/
  chosen : BlockPtr → Option BlockPtr
  /-- Has `to_longest` returned 0 for a block? -/
  asked : BlockPtr → Bool

/-- An event: a library call, an iteration of the daemon, or a step of a closing thread. -/
inductive LifeEvent
  /-- `init_blockchain`. -/
  | init (created : Bool)
  /-- Another call. -/
  | call (e : Event)
  /-- An iteration of the daemon. -/
  | daemon (pick seed : ℕ)
  /-- `close_chain`. -/
  | close
  /-- A closing thread takes a block. -/
  | drain (pick seed : ℕ)
  /-- A closing thread has emptied the queue and resets everything. -/
  | finish
  deriving DecidableEq, Repr

/-- The state after a call that ended with `x` and left `t` behind. -/
def Lifecycle.called (m : Lifecycle) (e : Event) (x : Exit) (t : Chain) : Lifecycle :=
  match e with
  | .addBlock _ _ pick =>
    if t.brk = m.chain.brk then { m with chain := t }
    else { m with
      chain := t
      chosen := Function.update m.chosen m.chain.brk m.chain.blockMap[findFather m.chain pick]? }
  | .toLongest blockNum =>
    if x = .ret success then { m with
      chain := t
      asked := fun p ↦
        m.asked p || decide (p ∈ m.chain.blockQueue ∧ (m.chain.heap p).index = blockNum) }
    else { m with chain := t }
  | _ => { m with chain := t }

/-- The state after a block was taken and `t` left behind. -/
def Lifecycle.took (m : Lifecycle) (t : Chain) : Lifecycle :=
  { m with chain := t, attached := m.attached + (t.blockMap.size - m.chain.blockMap.size) }

/-- What happens at an event. -/
def Lifecycle.step (H : HashLib) (m : Lifecycle) : LifeEvent → Option Lifecycle
  | .init created =>
    let (x, t) := initBlockchain m.chain created
    some { m with chain := t, attached := if x = .ret success then 0 else m.attached }
  | .call e =>
    if e.isCall then
      match perform H m.chain e with
      | (.diverges, _) => none
      | (x, t) => some (m.called e x t)
    else none
  | .daemon pick seed =>
    if m.chain.currentlyBlocked then none
    else some (m.took (daemonFunction H m.chain pick seed).2)
  | .close => some { m with
      chain := closeChain m.chain
      closers := if m.chain.isInitiated then m.closers + 1 else m.closers }
  | .drain pick seed =>
    if m.closers = 0 ∨ m.chain.blockQueue = [] then none
    else some (m.took (drainBlock H m.chain pick seed).2)
  | .finish =>
    if m.closers = 0 ∨ m.chain.blockQueue ≠ [] then none
    else some { m with chain := resetChain m.chain, closers := m.closers - 1 }

/-- The start of the program. -/
def Lifecycle.fresh : Lifecycle := ⟨Chain.fresh, 0, 0, fun _ ↦ none, fun _ ↦ false⟩

/-! ## The invariant -/

/-- The chain as it would be if it were not being closed. -/
def Chain.reopened (s : Chain) : Chain := { s with currentlyBlocked := false }

theorem Chain.reopened_eq (h : s.currentlyBlocked = false) : s.reopened = s := by
  rw [Chain.reopened, ← h]

/-- A chain that is not open is empty. -/
structure Shut (s : Chain) : Prop where
  /-- No block is attached. -/
  map : s.blockMap = ∅
  /-- No block is pending. -/
  queue : s.blockQueue = []
  /-- The counter is zero. -/
  counter : s.sizeCounter = 0
  /-- The chain is not being closed. -/
  unblocked : s.currentlyBlocked = false

/-- The invariant. -/
structure Lifecycle.Sound (m : Lifecycle) : Prop where
  /-- The blocks of an open chain hang together. -/
  linked : m.chain.isInitiated = true → Linked m.chain.reopened
  /-- A chain that is not open is empty. -/
  shut : m.chain.isInitiated = false → Shut m.chain

/-- An open chain with the genesis block alone. -/
def Chain.opened (s : Chain) : Chain :=
  { s with
    heap := Function.update s.heap s.brk (Block.new none 0 (-1) 0 0)
    brk := s.brk + 1
    blockMap := s.blockMap.insertIfNew 0 s.brk
    vecIndex := s.vecIndex ++ [0]
    isInitiated := true
    sMutex := true }

/-- What `init_blockchain` does. -/
theorem initBlockchain_cases (s : Chain) (created : Bool) :
    (s.isInitiated = false ∧ initBlockchain s created = (.ret success, s.opened)) ∨
      ∃ x b, x ≠ .ret success ∧ initBlockchain s created = (x, { s with sMutex := b }) := by
  rw [initBlockchain]
  split_ifs with h1 h2 h3
  · exact .inr ⟨_, s.sMutex, by decide, rfl⟩
  · exact .inr ⟨_, s.sMutex, by decide, rfl⟩
  · exact .inr ⟨_, true, by decide, rfl⟩
  · refine .inl ⟨?_, rfl⟩
    rw [Bool.or_eq_true, not_or, Bool.not_eq_true, Bool.not_eq_true] at h1
    exact h1.2

/-- While the chain is not open, a call does no more than set a flag. -/
theorem perform_of_closed (hc : (!s.isInitiated || s.currentlyBlocked) = true) {e : Event}
    (he : e.isCall = true) : (perform H s e).2 = s ∨ ∃ k, e = .toLongest k := by
  match e with
  | .addBlock .. => exact .inl (by rw [perform, addBlock, if_pos hc])
  | .toLongest k => exact .inr ⟨k, rfl⟩
  | .attachNow .. => exact .inl (by rw [perform, attachNow, if_pos hc])
  | .pruneChain .. => exact .inl (by rw [perform, pruneChain, if_pos hc])

/-- While the chain is not open, the calls change nothing but the flag of a pending block. -/
theorem perform_closed_cases (hc : (!s.isInitiated || s.currentlyBlocked) = true) {e : Event}
    (he : e.isCall = true) : (perform H s e).2 = s ∨ ∃ p ∈ s.blockQueue,
      (perform H s e).2 = s.modify p fun b ↦ { b with attachToLongest := true } := by
  rcases perform_of_closed (H := H) hc he with heq | ⟨k, rfl⟩
  · exact .inl heq
  · exact toLongest_cases s k

/-- The chain after a block was taken by a closing thread. -/
theorem Linked.drainBlock_eq {rest : List BlockPtr} (h : Linked s.reopened)
    (hq : s.blockQueue = p :: rest) :
    drainBlock H s pick seed =
      (.ret success, { s.processed H p rest pick seed with sizeCounter := s.sizeCounter }) := by
  have hhash := h.addAndHash_eq (H := H) p rest s.currentlyBlocked pick seed
  rw [drainBlock, hq]
  simp only [List.head?_cons, popBlock_head hq]
  exact hhash

variable {m m' : Lifecycle} {e : LifeEvent}

/-- The steps of the program, one by one. -/
inductive Lifecycle.Moves (H : HashLib) (m : Lifecycle) : LifeEvent → Lifecycle → Prop
  | opened (created : Bool) (hno : m.chain.isInitiated = false) :
      Moves H m (.init created) { m with chain := m.chain.opened, attached := 0 }
  | refused (created b : Bool) :
      Moves H m (.init created) { m with chain := { m.chain with sMutex := b } }
  | called (c : Event) (hc : c.isCall = true) :
      Moves H m (.call c) (m.called c (perform H m.chain c).1 (perform H m.chain c).2)
  | idle (pick seed : ℕ) (hq : m.chain.blockQueue = []) : Moves H m (.daemon pick seed) m
  | took (p : BlockPtr) (rest : List BlockPtr) (pick seed : ℕ) (hinit : m.chain.isInitiated = true)
      (hq : m.chain.blockQueue = p :: rest) :
      Moves H m (.daemon pick seed) (m.took (m.chain.processed H p rest pick seed))
  | closed : Moves H m .close { m with
      chain := closeChain m.chain
      closers := if m.chain.isInitiated then m.closers + 1 else m.closers }
  | drained (p : BlockPtr) (rest : List BlockPtr) (pick seed : ℕ)
      (hinit : m.chain.isInitiated = true) (hq : m.chain.blockQueue = p :: rest) :
      Moves H m (.drain pick seed) (m.took { m.chain.processed H p rest pick seed with
        sizeCounter := m.chain.sizeCounter })
  | finished (hq : m.chain.blockQueue = []) :
      Moves H m .finish { m with chain := resetChain m.chain, closers := m.closers - 1 }

/-- **What a step does.** -/
theorem Lifecycle.Sound.moves (hs : m.Sound) (hst : m.step H e = some m') : m.Moves H e m' := by
  have hopen : ∀ {p rest}, m.chain.blockQueue = p :: rest → m.chain.isInitiated = true := by
    intro p rest hq
    by_contra hno
    have hnil := (hs.shut (by simpa using hno)).queue
    rw [hq] at hnil
    cases hnil
  match e with
  | .init created =>
    rw [Lifecycle.step] at hst
    rcases initBlockchain_cases m.chain created with ⟨hno, heq⟩ | ⟨x, b, hx, heq⟩
    · rw [heq] at hst
      exact Option.some.inj hst ▸ .opened created hno
    · rw [heq] at hst
      simp only [if_neg hx] at hst
      exact Option.some.inj hst ▸ .refused created b
  | .call c =>
    rw [Lifecycle.step] at hst
    split at hst
    · rename_i hc
      split at hst
      · cases hst
      · rename_i x t _ heq
        have hmove : m.Moves H (.call c) _ := .called c hc
        rw [heq] at hmove
        exact Option.some.inj hst ▸ hmove
    · cases hst
  | .daemon pick seed =>
    rw [Lifecycle.step] at hst
    split at hst
    · cases hst
    rename_i hb
    match hq : m.chain.blockQueue with
    | [] =>
      have hsame : m.took (daemonFunction H m.chain pick seed).2 = m := by
        rw [daemonFunction_nil hq, Lifecycle.took, Nat.sub_self]
        rfl
      exact Option.some.inj hst ▸ hsame.symm ▸ .idle pick seed hq
    | p :: rest =>
      have hlinked := hs.linked (hopen hq)
      rw [Chain.reopened_eq (by simpa using hb)] at hlinked
      rw [hlinked.daemonFunction_eq hq] at hst
      exact Option.some.inj hst ▸ .took p rest pick seed (hopen hq) hq
  | .close => exact Option.some.inj hst ▸ .closed
  | .drain pick seed =>
    rw [Lifecycle.step] at hst
    split at hst
    · cases hst
    rename_i hne
    rw [not_or] at hne
    obtain ⟨p, rest, hq⟩ := List.exists_cons_of_ne_nil hne.2
    rw [(hs.linked (hopen hq)).drainBlock_eq hq] at hst
    exact Option.some.inj hst ▸ .drained p rest pick seed (hopen hq) hq
  | .finish =>
    rw [Lifecycle.step] at hst
    split at hst
    · cases hst
    rename_i hnil
    rw [not_or, not_not] at hnil
    exact Option.some.inj hst ▸ .finished hnil.2

/-- A call changes the global variables and the records, and nothing else. -/
theorem Lifecycle.called_frame (m : Lifecycle) (c : Event) (x : Exit) (t : Chain) :
    (m.called c x t).chain = t ∧ (m.called c x t).closers = m.closers ∧
      (m.called c x t).attached = m.attached := by
  cases c with
  | addBlock | toLongest =>
    rw [Lifecycle.called]
    split <;> exact ⟨rfl, rfl, rfl⟩
  | attachNow | pruneChain | daemon => exact ⟨rfl, rfl, rfl⟩

@[simp] theorem Lifecycle.called_chain (m : Lifecycle) (c : Event) (x : Exit) (t : Chain) :
    (m.called c x t).chain = t := (m.called_frame c x t).1

@[simp] theorem Lifecycle.called_closers (m : Lifecycle) (c : Event) (x : Exit) (t : Chain) :
    (m.called c x t).closers = m.closers := (m.called_frame c x t).2.1

@[simp] theorem Lifecycle.called_attached (m : Lifecycle) (c : Event) (x : Exit) (t : Chain) :
    (m.called c x t).attached = m.attached := (m.called_frame c x t).2.2

/-- Whether `s_mutex` is held does not matter. -/
theorem Linked.lock (h : Linked s) (b : Bool) : Linked { s with sMutex := b } :=
  ⟨h.initiated, h.unblocked, h.key, h.nonneg, h.genesis, h.null, h.rooted, h.marks, h.lt_brk,
    h.queue_nodup, h.pending⟩

theorem Lifecycle.Sound.linked_of_open (hs : m.Sound)
    (hopen : ¬(!m.chain.isInitiated || m.chain.currentlyBlocked) = true) : Linked m.chain := by
  simp only [Bool.or_eq_true, not_or, Bool.not_eq_true, Bool.not_eq_false'] at hopen
  rw [← Chain.reopened_eq hopen.2]
  exact hs.linked hopen.1

/-- What a call leaves alone, also while the chain is being closed. -/
theorem Lifecycle.Sound.callFrame (hs : m.Sound) {c : Event} (hc : c.isCall = true) :
    CallFrame m.chain (perform H m.chain c).2 := by
  by_cases hclosed : (!m.chain.isInitiated || m.chain.currentlyBlocked) = true
  · rcases perform_of_closed (H := H) hclosed hc with heq | ⟨k, rfl⟩
    · rw [heq]
      exact .refl _
    · exact callFrame_toLongest _ k
  · exact (hs.linked_of_open hclosed).callFrame hc

/-- A call keeps the invariant, also while the chain is being closed. -/
theorem Lifecycle.Sound.perform (hs : m.Sound) {c : Event} (hc : c.isCall = true) :
    ((perform H m.chain c).2.isInitiated = true → Linked (perform H m.chain c).2.reopened) ∧
      ((perform H m.chain c).2.isInitiated = false → Shut (perform H m.chain c).2) := by
  by_cases hclosed : (!m.chain.isInitiated || m.chain.currentlyBlocked) = true
  · rcases perform_closed_cases (H := H) hclosed hc with heq | ⟨p, hp, heq⟩
    · rw [heq]
      exact ⟨hs.linked, hs.shut⟩
    · rw [heq]
      refine ⟨fun h ↦ (hs.linked h).flag p, fun h ↦ ?_⟩
      have hnil := (hs.shut h).queue
      rw [hnil] at hp
      cases hp
  · have hnext := (hs.linked_of_open hclosed).perform (H := H) c
    refine ⟨fun _ ↦ ?_, fun h ↦ ?_⟩
    · rwa [Chain.reopened_eq hnext.unblocked]
    · rw [hnext.initiated] at h
      cases h

/-- **The step lemma.** -/
theorem Lifecycle.Sound.step (hs : m.Sound) (hst : m.step H e = some m') : m'.Sound := by
  cases hs.moves hst with
  | opened created hno =>
    obtain ⟨hmap, hqueue, -, hb⟩ := hs.shut hno
    refine ⟨fun _ ↦ ?_, fun h ↦ by cases h⟩
    rw [Chain.reopened_eq (show m.chain.opened.currentlyBlocked = false from hb)]
    exact Linked.init hmap hqueue hb
  | refused created b =>
    refine ⟨fun h ↦ (hs.linked h).lock b, fun h ↦ ?_⟩
    obtain ⟨hmap, hqueue, hcounter, hb⟩ := hs.shut h
    exact ⟨hmap, hqueue, hcounter, hb⟩
  | called c hc =>
    obtain ⟨hopen, hshut⟩ := hs.perform (H := H) hc
    constructor
    · rwa [Lifecycle.called_chain]
    · rwa [Lifecycle.called_chain]
  | idle pick seed hq => exact hs
  | took p rest pick seed hinit hq =>
    refine ⟨fun _ ↦ (hs.linked hinit).processed hq, fun h ↦ ?_⟩
    rw [show (m.took (m.chain.processed H p rest pick seed)).chain.isInitiated = true from hinit]
      at h
    cases h
  | closed =>
    rw [closeChain]
    split
    · rename_i hinit
      refine ⟨fun _ ↦ hs.linked hinit, fun h ↦ ?_⟩
      rw [show ({ m.chain with currentlyBlocked := true } : Chain).isInitiated = true from hinit]
        at h
      cases h
    · exact ⟨hs.linked, hs.shut⟩
  | drained p rest pick seed hinit hq =>
    have hlinked : Linked (m.chain.reopened.processed H p rest pick seed) :=
      (hs.linked hinit).processed hq
    refine ⟨fun _ ↦ hlinked.congr, fun h ↦ ?_⟩
    rw [show (m.took { m.chain.processed H p rest pick seed with
      sizeCounter := m.chain.sizeCounter }).chain.isInitiated = true from hinit] at h
    cases h
  | finished hq => exact ⟨fun h ↦ absurd h Bool.false_ne_true, fun _ ↦ ⟨rfl, hq, rfl, rfl⟩⟩

theorem Lifecycle.fresh_sound : Lifecycle.fresh.Sound :=
  ⟨fun h ↦ absurd h Bool.false_ne_true, fun _ ↦ ⟨rfl, rfl, rfl, rfl⟩⟩

/-! ## Counting -/

/-- `chain_size` is the number of blocks attached since the chain was opened. -/
def Lifecycle.Counted (m : Lifecycle) : Prop :=
  m.chain.isInitiated = true → chainSize m.chain = m.attached

/-- The daemon attaches the block it takes, and a closing thread does not. -/
def Lifecycle.Counts (m : Lifecycle) : LifeEvent → Prop
  | .daemon pick _ => ∀ p, m.chain.blockQueue.head? = some p → m.chain.Attaches p pick
  | .drain pick _ => ∀ p, m.chain.blockQueue.head? = some p → ¬m.chain.Attaches p pick
  | _ => True

open Classical in
/-- How many blocks taking a block attaches. -/
theorem size_processed (H : HashLib) (s : Chain) (seed : ℕ) (rest : List BlockPtr) :
    (s.processed H p rest pick seed).blockMap.size =
      s.blockMap.size + if s.Attaches p pick then 1 else 0 := by
  rw [Chain.processed]
  have hmem : s.fatherOf p pick ∈ s.blockMap ↔ s.blockMap[s.fatherOf p pick]?.isSome :=
    Std.TreeMap.mem_iff_isSome_getElem?
  simp only [Chain.Attaches, hmem]
  cases s.blockMap[s.fatherOf p pick]? with
  | none => simp
  | some q =>
    simp only [Std.TreeMap.size_insertIfNew, Option.isSome_some, true_and]
    by_cases hnew : (s.heap p).index ∈ s.blockMap
    · simp [hnew]
    · simp [hnew]

theorem chainSize_eq (h : s.isInitiated = true) : chainSize s = s.sizeCounter := by
  rw [chainSize, h]
  rfl

/-- After a block was taken, the counter has to agree with what that attached. -/
theorem Lifecycle.counted_took_iff {d : ℕ} (hinit : t.isInitiated = true)
    (hsize : t.blockMap.size = m.chain.blockMap.size + d) :
    (m.took t).Counted ↔ t.sizeCounter = m.attached + d := by
  rw [Lifecycle.Counted, Lifecycle.took, hsize, Nat.add_sub_cancel_left]
  simp only [chainSize_eq hinit, hinit, forall_const, Int.natCast_add]

/-- **Which steps keep the count.** -/
theorem Lifecycle.Counted.step_iff (hc : m.Counted) (hs : m.Sound)
    (hst : m.step H e = some m') : m'.Counted ↔ m.Counts e := by
  cases hs.moves hst with
  | opened created hno =>
    refine iff_of_true (fun h ↦ ?_) trivial
    rw [chainSize_eq h]
    exact (hs.shut hno).counter
  | refused created b => exact iff_of_true hc trivial
  | called c hcall =>
    refine iff_of_true (fun h ↦ ?_) trivial
    have hf := hs.callFrame (H := H) hcall
    rw [Lifecycle.called_chain] at h
    rw [Lifecycle.called_chain, Lifecycle.called_attached, chainSize_eq h, hf.counter,
      ← chainSize_eq (hf.initiated.symm.trans h)]
    exact hc (hf.initiated.symm.trans h)
  | idle pick seed hq => exact iff_of_true hc fun p hp ↦ by simp [hq] at hp
  | took p rest pick seed hinit hq =>
    have hbefore := hc hinit
    rw [chainSize_eq hinit] at hbefore
    have hcounts : m.Counts (.daemon pick seed) ↔ m.chain.Attaches p pick := by
      simp [Lifecycle.Counts, hq]
    have hiff : (m.took (m.chain.processed H p rest pick seed)).Counted ↔ _ :=
      Lifecycle.counted_took_iff hinit (size_processed H m.chain seed rest)
    rw [hcounts, hiff]
    change m.chain.sizeCounter + 1 = _ ↔ _
    by_cases hatt : m.chain.Attaches p pick
    · rw [if_pos hatt, hbefore]
      exact iff_of_true rfl hatt
    · rw [if_neg hatt, hbefore]
      exact iff_of_false (by omega) hatt
  | closed =>
    refine iff_of_true (fun h ↦ ?_) trivial
    have hclose : ∀ u : Chain, chainSize (closeChain u) = chainSize u := fun u ↦ by
      rw [closeChain]
      split <;> rfl
    rw [hclose]
    refine hc ?_
    by_contra hno
    rw [closeChain, if_neg hno] at h
    exact hno h
  | drained p rest pick seed hinit hq =>
    have hbefore := hc hinit
    rw [chainSize_eq hinit] at hbefore
    have hcounts : m.Counts (.drain pick seed) ↔ ¬m.chain.Attaches p pick := by
      simp [Lifecycle.Counts, hq]
    have hiff : (m.took { m.chain.processed H p rest pick seed with
        sizeCounter := m.chain.sizeCounter }).Counted ↔ _ :=
      Lifecycle.counted_took_iff hinit (size_processed H m.chain seed rest)
    rw [hcounts, hiff]
    change m.chain.sizeCounter = _ ↔ _
    by_cases hatt : m.chain.Attaches p pick
    · rw [if_pos hatt, hbefore]
      exact iff_of_false (by omega) (not_not.mpr hatt)
    · rw [if_neg hatt, hbefore]
      exact iff_of_true (by omega) hatt
  | finished hq => exact iff_of_true (fun h ↦ absurd h Bool.false_ne_true) trivial

/-- **`chain_size` counts the attached blocks in exactly the runs in which the daemon attaches every
block it takes, and the closing threads attach none.** -/
theorem always_counted_iff {es : List LifeEvent} :
    Run.Always (Lifecycle.step H) Lifecycle.Counted .fresh es ↔
      Run.Meets (Lifecycle.step H) Lifecycle.Counts .fresh es := by
  have hfresh : Lifecycle.fresh.Counted := fun h ↦ absurd h Bool.false_ne_true
  refine Run.always_iff_meets (I := fun m : Lifecycle ↦ m.Sound ∧ m.Counted)
    (fun m e m' hm hok hst ↦ ?_) (fun m hm ↦ hm.2)
    (fun m e m' hm hst hm' ↦ (hm.2.step_iff hm.1 hst).mp hm') ⟨Lifecycle.fresh_sound, hfresh⟩
  exact ⟨hm.1.step hst, (hm.2.step_iff hm.1 hst).mpr hok⟩

/-- An event of an open chain. -/
def LifeEvent.ofEvent : Event → LifeEvent
  | .daemon pick seed => .daemon pick seed
  | e => .call e

/-- The chain is opened, and then these events happen. -/
def openedEvents (es : List Event) : List LifeEvent := .init true :: es.map LifeEvent.ofEvent

/-- A block is added, and the chain is closed. -/
def closingEvents : List LifeEvent := openedEvents [.addBlock none 0 0] ++ [.close, .drain 0 0]

/-- The daemon discards block 3. -/
def discardingEvents : List LifeEvent := openedEvents (orphanEvents ++ [.daemon 0 0])

theorem exec_closingEvents :
    ∃ m, Run.exec (Lifecycle.step plainHash) .fresh closingEvents = some m ∧
      (m.chain.isInitiated, chainSize m.chain, m.attached) = (true, 0, 1) := by
  rw [← Option.map_eq_some_iff]
  decide

theorem exec_discardingEvents :
    ∃ m, Run.exec (Lifecycle.step plainHash) .fresh discardingEvents = some m ∧
      (m.chain.isInitiated, chainSize m.chain, m.attached) = (true, 3, 2) := by
  rw [← Option.map_eq_some_iff]
  decide

theorem not_counted_of_ne {v : ℤ} {n : ℕ}
    (h : (m.chain.isInitiated, chainSize m.chain, m.attached) = (true, v, n)) (hne : v ≠ n) :
    ¬m.Counted := fun hc ↦ by
  simp only [Prod.mk.injEq] at h
  obtain ⟨hinit, hsize, hatt⟩ := h
  have hcount := hc hinit
  rw [hsize, hatt] at hcount
  exact hne hcount

/-- A block that the closing thread attaches is not counted, and one that the daemon discards is. -/
theorem exists_not_counted :
    (∃ m, Run.exec (Lifecycle.step plainHash) .fresh closingEvents = some m ∧ ¬m.Counted) ∧
      ∃ m, Run.exec (Lifecycle.step plainHash) .fresh discardingEvents = some m ∧ ¬m.Counted := by
  obtain ⟨m, hm, h⟩ := exec_closingEvents
  obtain ⟨u, hu, h'⟩ := exec_discardingEvents
  exact ⟨⟨m, hm, not_counted_of_ne h (by decide)⟩, u, hu, not_counted_of_ne h' (by decide)⟩

end Blockchain
