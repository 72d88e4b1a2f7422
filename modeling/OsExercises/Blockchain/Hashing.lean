import OsExercises.Blockchain.Linked

/-!
# While a block is being hashed

An iteration of the daemon is two steps here: it pops a block, and some time later, after any number
of calls, it attaches the block.  In between the block is in the daemon's hands only, and the other
functions know of it by its number, which is in `isInDaemon`.  That variable is set when a block is
popped and never cleared.

* `Linked` carries over, for the state in which the block the daemon holds is put back
  (`Hashing.whole`).
* `wasAdded_eq`, `toLongest_fst_eq` and `attachNow_spec` say what the three questions look at.
* `exec_answers_iff` says when `was_added` and `to_longest` tell the truth about a number, and
  `exec_arrives_iff` when `attach_now` waits only for a block that arrives.
-/

set_option autoImplicit false

namespace Blockchain

variable {s t : Chain} {p q r : BlockPtr} {k n : ℤ} {H : HashLib} {pick seed : ℕ}

/-! ## The daemon's two steps -/

/-- A pending block, in front of the others. -/
def Chain.withFront (s : Chain) (p : BlockPtr) : Chain := { s with blockQueue := p :: s.blockQueue }

/-- An iteration is its two parts. -/
theorem daemonInsert_eq (H : HashLib) (s : Chain) (p : BlockPtr) (pick seed : ℕ) :
    daemonInsert H s p pick seed = daemonFunction H (s.withFront p) pick seed := by
  have hpop : popBlock (s.withFront p) ((s.withFront p).heap p).index = (some p, s) :=
    popBlock_head rfl
  rw [daemonFunction, show (s.withFront p).blockQueue.head? = some p from rfl]
  simp only [hpop]

theorem daemonTake_cons {rest : List BlockPtr} (hq : s.blockQueue = p :: rest) :
    daemonTake s =
      (some p, { s with blockQueue := rest, isInDaemon := (s.heap p).index }) := by
  rw [daemonTake, hq]
  simp only [List.head?_cons, popBlock_head hq]

theorem daemonTake_nil (hq : s.blockQueue = []) : daemonTake s = (none, s) := by
  rw [daemonTake, hq]
  rfl

/-- The chain, and the block the daemon has popped and not attached yet. -/
structure Hashing where
  /-- The global variables. -/
  chain : Chain
  /-- The daemon's block. -/
  held : Option BlockPtr

/-- An event: a library call, or a step of the daemon. -/
inductive HashEvent
  /-- A library call. -/
  | call (e : Event)
  /-- The daemon pops a block. -/
  | take
  /-- The daemon attaches the block it has popped. -/
  | insert (pick seed : ℕ)
  deriving DecidableEq, Repr

/-- What happens at an event. -/
def Hashing.step (H : HashLib) (m : Hashing) : HashEvent → Option Hashing
  | .call e => if e.isCall then (Blockchain.step H m.chain e).map fun t ↦ ⟨t, m.held⟩ else none
  | .take =>
    match m.held with
    | some _ => none
    | none =>
      let (block, t) := daemonTake m.chain
      some ⟨t, block⟩
  | .insert pick seed =>
    m.held.map fun block ↦ ⟨(daemonInsert H m.chain block pick seed).2, none⟩

/-- An open chain whose daemon is idle. -/
def Hashing.start (s : Chain) : Hashing := ⟨s, none⟩

/-- The chain with the daemon's block put back. -/
def Hashing.whole (m : Hashing) : Chain :=
  match m.held with
  | none => m.chain
  | some p => m.chain.withFront p

/-- The invariant. -/
structure Hashing.Sound (m : Hashing) : Prop where
  /-- With the daemon's block among them, the blocks hang together. -/
  linked : Linked m.whole
  /-- The number of the daemon's block is noted. -/
  noted : ∀ p, m.held = some p → m.chain.isInDaemon = (m.chain.heap p).index

/-- The block in front does not matter for the others. -/
theorem Linked.of_withFront (h : Linked (s.withFront p)) : Linked s :=
  ⟨h.initiated, h.unblocked, h.key, h.nonneg, h.genesis, h.null, h.rooted, h.marks, h.lt_brk,
    h.queue_nodup.of_cons, fun q hq ↦ h.pending q (List.mem_cons_of_mem _ hq)⟩

theorem Hashing.linked_chain {m : Hashing} (h : Linked m.whole) : Linked m.chain := by
  rw [Hashing.whole] at h
  split at h
  · exact h
  · exact h.of_withFront

/-- **The frame lemma**: what a call does has nothing to do with the daemon's block. -/
theorem Linked.perform_withFront (h : Linked (s.withFront p)) {e : Event} (he : e.isCall = true) :
    Linked ((Blockchain.perform H s e).2.withFront p) := by
  have hs := h.of_withFront
  match e with
  | .addBlock data length pick =>
    obtain ⟨q, -, heq⟩ := hs.addBlock_cases data length pick
    rw [Blockchain.perform, heq]
    split
    · exact h.congr
    · exact h.added
  | .toLongest k =>
    rw [Blockchain.perform]
    rcases toLongest_cases s k with heq | ⟨q, -, heq⟩
    · rwa [heq]
    · rw [heq]
      exact h.flag q
  | .attachNow k =>
    obtain ⟨q, hq, heq⟩ := attachNow_cases s k
    rw [Blockchain.perform, heq]
    exact h.perm (hq.cons p)
  | .pruneChain pick pastEnd =>
    obtain ⟨q, l, -, hl, hall, heq⟩ := hs.pruneChain_cases pick pastEnd
    rw [Blockchain.perform, heq]
    split
    · exact h.mark_pruned hl hall
    · exact (h.mark_path hl hall).congr

variable {m m' : Hashing} {e : HashEvent}

/-- A call is always possible. -/
theorem Hashing.Sound.step_call (hs : m.Sound) {c : Event} (hc : c.isCall = true) :
    m.step H (.call c) = some ⟨(perform H m.chain c).2, m.held⟩ := by
  rw [Hashing.step, if_pos hc, (Hashing.linked_chain hs.linked).step_eq]
  rfl

/-- **What a step does**: a library call, the daemon finds nothing to do, it pops a block, or it
attaches its block. -/
theorem Hashing.step_cases (hs : m.Sound) (hst : m.step H e = some m') :
    (∃ c, e = .call c ∧ c.isCall = true ∧ m' = ⟨(perform H m.chain c).2, m.held⟩) ∨
      (e = .take ∧ m.chain.blockQueue = [] ∧ m' = m) ∨
      (∃ p rest, e = .take ∧ m.held = none ∧ m.chain.blockQueue = p :: rest ∧
        m' = ⟨{ m.chain with blockQueue := rest, isInDaemon := (m.chain.heap p).index }, some p⟩) ∨
      ∃ p pick seed, e = .insert pick seed ∧ m.held = some p ∧
        m' = ⟨(m.chain.withFront p).processed H p m.chain.blockQueue pick seed, none⟩ := by
  cases e with
  | call c =>
    by_cases hc : c.isCall = true
    · rw [hs.step_call hc] at hst
      cases hst
      exact .inl ⟨c, rfl, hc, rfl⟩
    · rw [Hashing.step, if_neg hc] at hst
      cases hst
  | take =>
    rw [Hashing.step] at hst
    cases hheld : m.held with
    | some p =>
      rw [hheld] at hst
      cases hst
    | none =>
      rw [hheld] at hst
      cases hq : m.chain.blockQueue with
      | nil =>
        simp only [daemonTake_nil hq] at hst
        cases hst
        exact .inr (.inl ⟨rfl, rfl, by rw [← hheld]⟩)
      | cons p rest =>
        simp only [daemonTake_cons hq] at hst
        cases hst
        exact .inr (.inr (.inl ⟨p, rest, rfl, rfl, rfl, rfl⟩))
  | insert pick seed =>
    rw [Hashing.step] at hst
    obtain ⟨p, hp, rfl⟩ := Option.map_eq_some_iff.mp hst
    refine .inr (.inr (.inr ⟨p, pick, seed, rfl, hp, ?_⟩))
    have hlinked := hs.linked
    rw [Hashing.whole, hp] at hlinked
    rw [daemonInsert_eq, hlinked.daemonFunction_eq rfl]

/-- **The step lemma.** -/
theorem Hashing.Sound.step (hs : m.Sound) (hst : m.step H e = some m') : m'.Sound := by
  have hchain := Hashing.linked_chain hs.linked
  rcases Hashing.step_cases hs hst with ⟨c, -, hc, rfl⟩ | ⟨-, -, rfl⟩ |
    ⟨p, rest, -, hheld, hq, rfl⟩ | ⟨p, pick, seed, -, hheld, rfl⟩
  · have hf := hchain.callFrame (H := H) hc
    refine ⟨?_, fun p hp ↦ ?_⟩
    · have hlinked := hs.linked
      rw [Hashing.whole] at hlinked ⊢
      cases hheld : m.held with
      | none => exact hchain.perform c
      | some p =>
        rw [hheld] at hlinked
        exact hlinked.perform_withFront hc
    · have hlinked := hs.linked
      rw [Hashing.whole, show m.held = some p from hp] at hlinked
      rw [hf.noted, hf.index p (hlinked.pending p List.mem_cons_self).2.1]
      exact hs.noted p hp
  · exact hs
  · refine ⟨?_, fun q hq' ↦ by cases hq'; rfl⟩
    -- put back in front of the queue, the block is where it was
    have hlinked := hchain.perm (q := p :: rest) (by rw [hq])
    exact hlinked.congr
  · refine ⟨?_, fun q hq ↦ by cases hq⟩
    have hlinked := hs.linked
    rw [Hashing.whole, hheld] at hlinked
    exact hlinked.processed rfl

theorem exec_sound {s₀ : Chain} {es : List HashEvent}
    (h0 : initBlockchain Chain.fresh true = (.ret success, s₀))
    (h : Run.exec (Hashing.step H) (.start s₀) es = some m) : m.Sound := by
  have hstart : (Hashing.start s₀).Sound := ⟨initBlockchain_linked h0, fun _ hp ↦ by cases hp⟩
  exact Run.exec_induction (fun _ _ _ hs hst ↦ hs.step hst) hstart h

/-! ## What the questions look at -/

instance (s : Chain) (n : ℤ) : Decidable (s.Pending n) :=
  inferInstanceAs (Decidable (∃ p ∈ s.blockQueue, (s.heap p).index = n))

theorem existBlock_ne_fail_iff : existBlock s n ≠ fail ↔ s.Pending n := by
  rw [Ne, existBlock_eq_fail_iff, not_not]

/-- `was_added` looks at `blockMap`, the queue, and the number that is noted. -/
theorem wasAdded_eq (hs : s.isInitiated = true) (n : ℤ) :
    wasAdded s n = if n ∈ s.blockMap then 1
      else if s.Pending n ∨ n = s.isInDaemon then 0 else -2 := by
  simp only [wasAdded, hs, Bool.not_true, Bool.false_eq_true, if_false, existBlock_ne_fail_iff]
  rfl

/-- `to_longest` looks at `blockMap` and the queue. -/
theorem toLongest_fst_eq (hs : s.isInitiated = true) (n : ℤ) :
    (toLongest s n).1 = .ret (if n ∈ s.blockMap then 1 else if s.Pending n then 0 else -2) := by
  rw [toLongest, hs, if_neg (by simp)]
  by_cases hn : n ∈ s.blockMap
  · rw [if_pos hn, if_pos hn]
    rfl
  rw [if_neg hn, if_neg hn]
  by_cases hp : s.Pending n
  · have hne := existBlock_ne_fail_iff.mpr hp
    obtain ⟨p, hget⟩ : ∃ p, s.blockQueue[(existBlock s n).toNat]? = some p := by
      rw [existBlock] at hne ⊢
      split
      · rename_i i hi
        obtain ⟨hlt, -⟩ := List.findIdx?_eq_some_iff_getElem.mp hi
        exact ⟨_, List.getElem?_eq_getElem hlt⟩
      · rename_i hi
        simp [hi] at hne
    simp only [if_neg hne, hget, if_pos hp]
    rfl
  · simp only [if_pos (existBlock_eq_fail_iff.mpr hp), if_neg hp]
    rfl

/-- **What `attach_now` does**: it waits at once for a block whose number is noted, and moves a
pending block to the front before it waits. -/
theorem attachNow_spec (h : Linked s) (n : ℤ) :
    (n ∈ s.blockMap ∧ attachNow s n = (.ret success, s)) ∨
      (n ∉ s.blockMap ∧ s.isInDaemon = n ∧ attachNow s n = (.waits n, s)) ∨
        (n ∉ s.blockMap ∧ s.isInDaemon ≠ n ∧ ¬s.Pending n ∧
          attachNow s n = (.ret unsuccessful, s)) ∨
          (n ∉ s.blockMap ∧ s.isInDaemon ≠ n ∧ ∃ l p l', s.blockQueue = l ++ p :: l' ∧
            (∀ q ∈ l, (s.heap q).index ≠ n) ∧ (s.heap p).index = n ∧
            attachNow s n = (.waits n, { s with blockQueue := p :: (l ++ l') })) := by
  rw [attachNow, if_neg h.not_closed]
  by_cases hn : n ∈ s.blockMap
  · exact .inl ⟨hn, by rw [if_pos hn]⟩
  rw [if_neg hn]
  by_cases hd : s.isInDaemon = n
  · exact .inr (.inl ⟨hn, hd, by rw [if_pos hd]⟩)
  rw [if_neg hd]
  by_cases hp : s.Pending n
  · obtain ⟨l, p, l', hl, hall, hpn⟩ := hp.exists_split
    have hne : existBlock s n ≠ fail := fun hf ↦ existBlock_eq_fail_iff.mp hf hp
    refine .inr (.inr (.inr ⟨hn, hd, l, p, l', hl, hall, hpn, ?_⟩))
    rw [if_neg hne, popBlock_of_split hl hall hpn]
  · exact .inr (.inr (.inl ⟨hn, hd, hp, by rw [if_pos (existBlock_eq_fail_iff.mpr hp)]⟩))

/-! ## Telling the truth about a number -/

/-- In the run `es` from `m₀` to `m`, `add_block` has made the block `p`, and `blockMap` has not had
it yet. -/
structure Awaits (H : HashLib) (m₀ : Hashing) (es : List HashEvent) (m : Hashing) (p : BlockPtr) :
    Prop where
  /-- `p` was made in the run. -/
  accepted : m₀.chain.brk ≤ p ∧ p < m.chain.brk
  /-- It has not been attached in any state so far. -/
  never : Run.Always (Hashing.step H) (fun u ↦ ¬u.chain.Attached p) m₀ es

/-- A block with this number is pending: accepted by `add_block`, and not in `blockMap` so far. -/
def Outstanding (H : HashLib) (m₀ : Hashing) (es : List HashEvent) (m : Hashing) (n : ℤ) : Prop :=
  ∃ p, Awaits H m₀ es m p ∧ (m.chain.heap p).index = n

/-- A block with this number was discarded: it is pending, but it is neither in the queue nor in the
daemon's hands any more. -/
def Discarded (H : HashLib) (m₀ : Hashing) (es : List HashEvent) (m : Hashing) (n : ℤ) : Prop :=
  ∃ p, Awaits H m₀ es m p ∧ p ∉ m.chain.blockQueue ∧ m.held ≠ some p ∧
    (m.chain.heap p).index = n

/-- The two questions tell the truth about `n`: `1` when it is the number of an attached block, `0`
when it is the number of a pending one, and `-2` otherwise. -/
structure Answers (H : HashLib) (m₀ : Hashing) (es : List HashEvent) (m : Hashing) (n : ℤ) :
    Prop where
  /-- `was_added` for an attached block. -/
  added : wasAdded m.chain n = 1 ↔ n ∈ m.chain.blockMap
  /-- `was_added` for a pending block. -/
  addedNot : wasAdded m.chain n = 0 ↔ Outstanding H m₀ es m n
  /-- `was_added` otherwise. -/
  addedNone : wasAdded m.chain n = -2 ↔ n ∉ m.chain.blockMap ∧ ¬Outstanding H m₀ es m n
  /-- `to_longest` for an attached block. -/
  longest : (toLongest m.chain n).1 = .ret 1 ↔ n ∈ m.chain.blockMap
  /-- `to_longest` for a pending block. -/
  longestNot : (toLongest m.chain n).1 = .ret 0 ↔ Outstanding H m₀ es m n
  /-- `to_longest` otherwise. -/
  longestNone : (toLongest m.chain n).1 = .ret (-2) ↔
    n ∉ m.chain.blockMap ∧ ¬Outstanding H m₀ es m n

/-- What the answers about `n` need: an attached block's number is not a pending one's, and the
number that is noted, or one of a discarded block, is that of an attached or of a queued block. -/
def Answerable (H : HashLib) (m₀ : Hashing) (es : List HashEvent) (m : Hashing) (n : ℤ) : Prop :=
  (n ∈ m.chain.blockMap → ¬Outstanding H m₀ es m n) ∧
    (n ∉ m.chain.blockMap → n = m.chain.isInDaemon ∨ Discarded H m₀ es m n → m.chain.Pending n)

/-- Before a block is attached it is still to be made, or in the queue, or in the daemon's hands. -/
def Hashing.Waiting (m : Hashing) (p : BlockPtr) : Prop :=
  m.chain.brk ≤ p ∨ p ∈ m.chain.blockQueue ∨ m.held = some p

theorem Hashing.Sound.not_attached (hs : m.Sound) (hp : m.Waiting p) : ¬m.chain.Attached p := by
  have hchain := Hashing.linked_chain hs.linked
  rcases hp with hp | hp | hp
  · exact fun hatt ↦ absurd (hchain.lt_brk p hatt) (not_lt.mpr hp)
  · exact (hchain.pending p hp).1
  · have hlinked := hs.linked
    rw [Hashing.whole, hp] at hlinked
    exact (hlinked.pending p List.mem_cons_self).1

/-- A block does not come back to the queue or to the daemon. -/
theorem Hashing.Waiting.of_step (hs : m.Sound) (hst : m.step H e = some m')
    (hp : m'.Waiting p) : m.Waiting p := by
  have hchain := Hashing.linked_chain hs.linked
  rcases Hashing.step_cases hs hst with ⟨c, -, hc, rfl⟩ | ⟨-, -, rfl⟩ |
    ⟨q, rest, -, -, hq, rfl⟩ | ⟨q, pick, seed, -, -, rfl⟩
  · have hf := hchain.callFrame (H := H) hc
    rcases hp with hp | hp | hp
    · exact .inl (hf.brk_le.trans hp)
    · rcases hf.queue p hp with hp | rfl
      · exact .inr (.inl hp)
      · exact .inl le_rfl
    · exact .inr (.inr hp)
  · exact hp
  · rcases hp with hp | hp | hp
    · exact .inl hp
    · exact .inr (.inl (by rw [hq]; exact List.mem_cons_of_mem _ hp))
    · cases hp
      exact .inr (.inl (by rw [hq]; exact List.mem_cons_self))
  · rcases hp with hp | hp | hp
    · exact .inl hp
    · exact .inr (.inl hp)
    · cases hp

/-- The blocks in the queue and in the daemon's hands are pending. -/
theorem awaits_of_waiting {s₀ : Chain} {es : List HashEvent}
    (h0 : initBlockchain Chain.fresh true = (.ret success, s₀))
    (h : Run.exec (Hashing.step H) (.start s₀) es = some m) (hp : p < m.chain.brk)
    (hw : p ∈ m.chain.blockQueue ∨ m.held = some p) : Awaits H (.start s₀) es m p := by
  have hlinked := initBlockchain_linked h0
  have hstart : (Hashing.start s₀).Sound := ⟨hlinked, fun _ hp ↦ by cases hp⟩
  have hback : ∀ (u : Hashing) e v, u.Sound → Hashing.step H u e = some v →
      v.Waiting p ∧ ¬v.chain.Attached p → u.Waiting p ∧ ¬u.chain.Attached p := by
    intro u e v hu huv hv
    have huw : u.Waiting p := .of_step hu huv hv.1
    exact ⟨huw, hu.not_attached huw⟩
  have hnever : Run.Always (Hashing.step H) (fun u ↦ u.Waiting p ∧ ¬u.chain.Attached p)
      (.start s₀) es :=
    Run.always_of_exec (fun _ _ _ hs hst ↦ hs.step hst) hback hstart h
      ⟨.inr hw, (exec_sound h0 h).not_attached (.inr hw)⟩
  refine ⟨⟨?_, hp⟩, hnever.imp fun u hu ↦ hu.2⟩
  rcases hnever.start.1 with hp | hp | hp
  · exact hp
  · have hqueue : s₀.blockQueue = [] := by
      rw [← (Prod.mk.inj h0).2]
      rfl
    rw [show (Hashing.start s₀).chain.blockQueue = [] from hqueue] at hp
    cases hp
  · cases hp

/-- Pending are the blocks in the queue, the one in the daemon's hands, and the discarded ones. -/
theorem outstanding_iff {s₀ : Chain} {es : List HashEvent}
    (h0 : initBlockchain Chain.fresh true = (.ret success, s₀))
    (h : Run.exec (Hashing.step H) (.start s₀) es = some m) (n : ℤ) :
    Outstanding H (.start s₀) es m n ↔ m.chain.Pending n ∨
      (∃ p, m.held = some p ∧ (m.chain.heap p).index = n) ∨ Discarded H (.start s₀) es m n := by
  have hs := exec_sound h0 h
  have hchain := Hashing.linked_chain hs.linked
  constructor
  · rintro ⟨p, hp, rfl⟩
    by_cases hq : p ∈ m.chain.blockQueue
    · exact .inl ⟨p, hq, rfl⟩
    by_cases hd : m.held = some p
    · exact .inr (.inl ⟨p, hd, rfl⟩)
    · exact .inr (.inr ⟨p, hp, hq, hd, rfl⟩)
  · rintro (⟨p, hp, rfl⟩ | ⟨p, hp, rfl⟩ | ⟨p, hp, -, -, rfl⟩)
    · exact ⟨p, awaits_of_waiting h0 h (hchain.pending p hp).2.1 (.inl hp), rfl⟩
    · have hlinked := hs.linked
      rw [Hashing.whole, hp] at hlinked
      exact ⟨p, awaits_of_waiting h0 h (hlinked.pending p List.mem_cons_self).2.1 (.inr hp), rfl⟩
    · exact ⟨p, hp, rfl⟩

/-- Both questions answer the same, and that is the truth. -/
theorem Answers.of_ret {m₀ : Hashing} {es : List HashEvent} {v : ℤ} (ha : wasAdded m.chain n = v)
    (hl : (toLongest m.chain n).1 = .ret v)
    (hadded : v = 1 ↔ n ∈ m.chain.blockMap) (hout : v = 0 ↔ Outstanding H m₀ es m n)
    (hnone : v = -2 ↔ n ∉ m.chain.blockMap ∧ ¬Outstanding H m₀ es m n) :
    Answers H m₀ es m n := by
  refine ⟨?_, ?_, ?_, ?_, ?_, ?_⟩ <;> simp only [ha, hl, Exit.ret.injEq]
  · exact hadded
  · exact hout
  · exact hnone
  · exact hadded
  · exact hout
  · exact hnone

/-- **When `was_added` and `to_longest` tell the truth about a number**, in any state of any run. -/
theorem exec_answers_iff {s₀ : Chain} {es : List HashEvent}
    (h0 : initBlockchain Chain.fresh true = (.ret success, s₀))
    (h : Run.exec (Hashing.step H) (.start s₀) es = some m) (n : ℤ) :
    Answers H (.start s₀) es m n ↔ Answerable H (.start s₀) es m n := by
  have hs := exec_sound h0 h
  have hinit := (Hashing.linked_chain hs.linked).initiated
  have hout := outstanding_iff h0 h n
  have hheld : (∃ p, m.held = some p ∧ (m.chain.heap p).index = n) → n = m.chain.isInDaemon := by
    rintro ⟨p, hp, rfl⟩
    exact (hs.noted p hp).symm
  have hadd := wasAdded_eq hinit n
  have hlong := toLongest_fst_eq hinit n
  constructor
  · rintro ⟨-, h2, -, -, h5, -⟩
    refine ⟨fun hn hp ↦ ?_, fun hn hd ↦ ?_⟩
    · -- an attached block is found first
      rw [if_pos hn, h2.mpr hp] at hadd
      cases hadd
    · -- otherwise `to_longest` has only the queue to look at
      by_contra hq
      rw [if_neg hn, if_neg hq] at hlong
      have hno : ¬Outstanding H (.start s₀) es m n := fun hp ↦ by
        rw [h5.mpr hp] at hlong
        cases hlong
      rcases hd with hd | hd
      · rw [if_neg hn, if_pos (.inr hd)] at hadd
        exact hno (h2.mp hadd)
      · exact hno (hout.mpr (.inr (.inr hd)))
  · rintro ⟨h1, h2⟩
    by_cases hn : n ∈ m.chain.blockMap
    · rw [if_pos hn] at hadd hlong
      exact .of_ret hadd hlong (by simp [hn]) (by simp [h1 hn]) (by simp [hn])
    have hiff : Outstanding H (.start s₀) es m n ↔ m.chain.Pending n := by
      rw [hout]
      refine ⟨?_, .inl⟩
      rintro (hp | hp | hp)
      · exact hp
      · exact h2 hn (.inl (hheld hp))
      · exact h2 hn (.inr hp)
    by_cases hp : m.chain.Pending n
    · rw [if_neg hn, if_pos (.inl hp)] at hadd
      rw [if_neg hn, if_pos hp] at hlong
      exact .of_ret hadd hlong (by simp [hn]) (by simp [hiff, hp]) (by simp [hiff, hp])
    · rw [if_neg hn, if_neg (not_or.mpr ⟨hp, fun hd ↦ hp (h2 hn (.inl hd))⟩)] at hadd
      rw [if_neg hn, if_neg hp] at hlong
      exact .of_ret hadd hlong (by simp [hn]) (by simp [hiff, hp]) (by simp [hn, hiff, hp])

/-- To `to_longest`, a block that is being hashed does not exist. -/
theorem not_answers_of_held {s₀ : Chain} {es : List HashEvent}
    (h0 : initBlockchain Chain.fresh true = (.ret success, s₀))
    (h : Run.exec (Hashing.step H) (.start s₀) es = some m)
    (hp : (m.held, (m.chain.heap p).index) = (some p, n))
    (hn : (decide (n ∈ m.chain.blockMap), decide (m.chain.Pending n)) = (false, false)) :
    ¬Answers H (.start s₀) es m n := by
  simp only [Prod.mk.injEq, decide_eq_false_iff_not] at hn hp
  intro ha
  have hout : Outstanding H (.start s₀) es m n :=
    (outstanding_iff h0 h n).mpr (.inr (.inl ⟨p, hp⟩))
  have hlong := toLongest_fst_eq (Hashing.linked_chain (exec_sound h0 h).linked).initiated n
  rw [if_neg hn.1, if_neg hn.2, ha.longestNot.mpr hout] at hlong
  cases hlong

/-- A block is added, and the daemon pops it. -/
def heldEvents : List HashEvent := [.call (.addBlock none 0 0), .take]

theorem exec_heldEvents :
    ∃ m, Run.exec (Hashing.step plainHash) (.start (initBlockchain Chain.fresh true).2) heldEvents =
        some m ∧ ((m.held, (m.chain.heap 1).index),
          (decide ((1 : ℤ) ∈ m.chain.blockMap), decide (m.chain.Pending 1))) =
            ((some 1, 1), (false, false)) := by
  rw [← Option.map_eq_some_iff]
  decide

theorem exists_not_answers :
    ∃ s₀ m, initBlockchain Chain.fresh true = (.ret success, s₀) ∧
      Run.exec (Hashing.step plainHash) (.start s₀) heldEvents = some m ∧
        ¬Answers plainHash (.start s₀) heldEvents m 1 := by
  obtain ⟨m, hm, h⟩ := exec_heldEvents
  obtain ⟨hp, hn⟩ := Prod.mk.inj h
  exact ⟨_, m, rfl, hm, not_answers_of_held rfl hm hp hn⟩

theorem exec_answers_iff_sample :
    ∃ s₀ m, Run.exec (Hashing.step plainHash) (.start s₀) heldEvents = some m ∧
      ¬Answerable plainHash (.start s₀) heldEvents m 1 := by
  obtain ⟨m, hm, h⟩ := exec_heldEvents
  obtain ⟨hp, hn⟩ := Prod.mk.inj h
  exact ⟨_, m, hm, fun ha ↦ not_answers_of_held rfl hm hp hn ((exec_answers_iff rfl hm 1).mpr ha)⟩

/-! ## Waiting for a block -/

/-- The daemon holds a block with this number. -/
def Hashing.Holds (m : Hashing) (n : ℤ) : Prop := ∃ p, m.held = some p ∧ (m.chain.heap p).index = n

/-- The chain when the daemon has attached, or discarded, the block it holds. -/
def Hashing.finish (H : HashLib) (m : Hashing) (pick seed : ℕ) : Chain :=
  match m.held with
  | none => m.chain
  | some p => (daemonInsert H m.chain p pick seed).2

/-- A wait for `n` comes to an end: the number is in `blockMap` once the daemon is done with the
block it holds, or else after its next iteration. -/
def Hashing.Ends (H : HashLib) (m : Hashing) (n : ℤ) : Prop :=
  ∀ pick seed pick' seed', n ∈ (m.finish H pick seed).blockMap ∨
    n ∈ (daemonFunction H (m.finish H pick seed) pick' seed').2.blockMap

/-- `attach_now` waits for `n` only if its block arrives. -/
structure Arrives (H : HashLib) (m : Hashing) (n : ℤ) : Prop where
  /-- It waits for a pending block only. -/
  waits : (attachNow m.chain n).1 = .waits n → m.chain.Pending n ∨ m.Holds n
  /-- If the block is queued, it is moved to the front, and nothing else happens to the queue. -/
  front : (attachNow m.chain n).1 = .waits n → ∀ l p l', m.chain.blockQueue = l ++ p :: l' →
    (∀ q ∈ l, (m.chain.heap q).index ≠ n) → (m.chain.heap p).index = n →
      (attachNow m.chain n).2.blockQueue = p :: (l ++ l')
  /-- Without a block there is no wait. -/
  none : n ∉ m.chain.blockMap → ¬m.chain.Pending n → ¬m.Holds n →
    (attachNow m.chain n).1 = .ret unsuccessful
  /-- The block the daemon has popped gets its number into `blockMap`. -/
  lands : ∀ p, m.held = some p → (m.chain.heap p).index = n → ∀ pick seed,
    n ∈ (daemonInsert H m.chain p pick seed).2.blockMap
  /-- The wait has an end. -/
  ends : (attachNow m.chain n).1 = .waits n →
    Hashing.Ends H ⟨(attachNow m.chain n).2, m.held⟩ n

/-- The daemon will find a father for this block when it is done with the block it holds, which may
be the father. -/
def Hashing.Fathered (m : Hashing) (p : BlockPtr) : Prop :=
  m.chain.Fathered p ∨
    ∃ q, m.held = some q ∧ (m.chain.heap q).index = (m.chain.heap p).fatherIndex ∧
      m.chain.Fathered q

/-- What the wait for `n` needs: if `n` is the number that is noted, without being that of an
attached block, then it is that of the front block, or of the daemon's block alone; there is a
father for the daemon's block, if it matters; and there will be one for the queued block. -/
def Arrivable (m : Hashing) (n : ℤ) : Prop :=
  (n ∉ m.chain.blockMap → m.chain.isInDaemon = n →
      (∃ p, m.chain.blockQueue.head? = some p ∧ (m.chain.heap p).index = n) ∨
        ¬m.chain.Pending n ∧ m.Holds n) ∧
    (∀ p, m.held = some p → (m.chain.heap p).index = n →
      n ∈ m.chain.blockMap ∨ m.chain.Fathered p) ∧
    (n ∉ m.chain.blockMap → ¬m.Holds n → ∀ l p l', m.chain.blockQueue = l ++ p :: l' →
      (∀ q ∈ l, (m.chain.heap q).index ≠ n) → (m.chain.heap p).index = n → m.Fathered p)

/-- The first block with a given number is determined. -/
theorem split_unique {f : BlockPtr → ℤ} {l₁ l₁' l₂ l₂' : List BlockPtr}
    (h : l₁ ++ p :: l₁' = l₂ ++ q :: l₂') (h₁ : ∀ r ∈ l₁, f r ≠ n) (hp : f p = n)
    (h₂ : ∀ r ∈ l₂, f r ≠ n) (hq : f q = n) : l₁ = l₂ ∧ p = q ∧ l₁' = l₂' := by
  rcases List.append_eq_append_iff.mp h with ⟨c, rfl, hc⟩ | ⟨c, rfl, hc⟩
  · cases c with
    | nil => simpa using hc
    | cons r c =>
      obtain ⟨rfl, -⟩ := List.cons.inj hc
      exact absurd hp (h₂ p (by simp))
  · cases c with
    | nil => simpa [eq_comm] using hc
    | cons r c =>
      obtain ⟨rfl, -⟩ := List.cons.inj hc
      exact absurd hq (h₁ q (by simp))

/-- The block in front gets its number into `blockMap` if there is a father for it. -/
theorem Linked.mem_front_iff {rest : List BlockPtr} (h : Linked s)
    (hq : s.blockQueue = p :: rest) (k : ℤ) :
    k ∈ (Blockchain.daemonFunction H s pick seed).2.blockMap ↔
      k ∈ s.blockMap ∨ k = (s.heap p).index ∧ s.Fathered p := by
  rw [h.daemonFunction_eq hq, mem_processed_iff, h.fatherOf_mem_iff]

/-- So does the block in the daemon's hands. -/
theorem Linked.mem_daemonInsert_iff (h : Linked (s.withFront p)) (k : ℤ) :
    k ∈ (daemonInsert H s p pick seed).2.blockMap ↔
      k ∈ s.blockMap ∨ k = (s.heap p).index ∧ s.Fathered p := by
  rw [daemonInsert_eq]
  exact h.mem_front_iff rfl k

theorem Hashing.lands_iff (hs : Linked m.whole) (n : ℤ) :
    (∀ p, m.held = some p → (m.chain.heap p).index = n → ∀ pick seed,
      n ∈ (daemonInsert H m.chain p pick seed).2.blockMap) ↔
      ∀ p, m.held = some p → (m.chain.heap p).index = n →
        n ∈ m.chain.blockMap ∨ m.chain.Fathered p := by
  refine forall₃_congr fun p hp hn ↦ ?_
  rw [Hashing.whole, hp] at hs
  have hiff : ∀ pick seed, n ∈ (daemonInsert H m.chain p pick seed).2.blockMap ↔
      n ∈ m.chain.blockMap ∨ m.chain.Fathered p := fun pick seed ↦ by
    rw [hs.mem_daemonInsert_iff, hn, eq_self, true_and]
  exact ⟨fun hl ↦ (hiff 0 0).mp (hl 0 0), fun hl pick seed ↦ (hiff pick seed).mpr hl⟩

/-- **What the daemon leaves** when it is done with the block it holds: the front block is the one
it was, and has a father if it had one, or if the held block has become it. -/
theorem Hashing.finish_spec {rest : List BlockPtr} (hs : Linked m.whole)
    (hq : m.chain.blockQueue = p :: rest) (hno : ¬m.Holds (m.chain.heap p).index) (pick seed : ℕ) :
    Linked (m.finish H pick seed) ∧ (m.finish H pick seed).blockQueue = p :: rest ∧
      (m.finish H pick seed).heap p = m.chain.heap p ∧
      ((m.chain.heap p).index ∈ (m.finish H pick seed).blockMap ↔
        (m.chain.heap p).index ∈ m.chain.blockMap) ∧
      ((m.finish H pick seed).Fathered p ↔ m.Fathered p) := by
  cases hheld : m.held with
  | none =>
    rw [Hashing.whole, hheld] at hs
    have hnone : m.finish H pick seed = m.chain := by rw [Hashing.finish, hheld]
    rw [hnone]
    exact ⟨hs, hq, rfl, Iff.rfl, by simp [Hashing.Fathered, hheld]⟩
  | some q =>
    rw [Hashing.whole, hheld] at hs
    have hqn : (m.chain.heap p).index ≠ (m.chain.heap q).index := fun h ↦ hno ⟨q, hheld, h.symm⟩
    have hpq : p ≠ q := fun h ↦ hqn (by rw [h])
    have hdone : m.finish H pick seed = (daemonInsert H m.chain q pick seed).2 := by
      rw [Hashing.finish, hheld]
    have hprocessed : (daemonInsert H m.chain q pick seed).2 =
        (m.chain.withFront q).processed H q m.chain.blockQueue pick seed := by
      rw [daemonInsert_eq, hs.daemonFunction_eq rfl]
    have hmem : ∀ k, k ∈ (daemonInsert H m.chain q pick seed).2.blockMap ↔
        k ∈ m.chain.blockMap ∨ k = (m.chain.heap q).index ∧ m.chain.Fathered q :=
      hs.mem_daemonInsert_iff
    have hheap : (daemonInsert H m.chain q pick seed).2.heap p = m.chain.heap p := by
      rw [hprocessed]
      exact processed_heap_of_ne hpq
    rw [hdone]
    refine ⟨?_, ?_, hheap, ?_, ?_⟩
    · rw [hprocessed]
      exact hs.processed rfl
    · rw [hprocessed]
      exact hq
    · simp only [hmem, hqn, false_and, or_false]
    · simp only [Hashing.Fathered, Chain.Fathered, hheap, hmem, hheld, Option.some.injEq,
        exists_eq_left', or_assoc, eq_comm]

/-- **The end of a wait** for the block in front. -/
theorem Hashing.ends_iff {rest : List BlockPtr} (hs : Linked m.whole)
    (hq : m.chain.blockQueue = p :: rest) (hpn : (m.chain.heap p).index = n)
    (hn : n ∉ m.chain.blockMap) (hno : ¬m.Holds n) : m.Ends H n ↔ m.Fathered p := by
  subst hpn
  have hiff : ∀ pick seed pick' seed',
      ((m.chain.heap p).index ∈ (m.finish H pick seed).blockMap ∨ (m.chain.heap p).index ∈
        (daemonFunction H (m.finish H pick seed) pick' seed').2.blockMap) ↔ m.Fathered p := by
    intro pick seed pick' seed'
    obtain ⟨hlinked, hqueue, hheap, hmem, hfather⟩ :=
      Hashing.finish_spec (H := H) hs hq hno pick seed
    rw [hlinked.mem_front_iff hqueue, hmem, hheap, hfather, eq_self, true_and]
    simp only [hn, false_or]
  exact ⟨fun h ↦ (hiff 0 0 0 0).mp (h 0 0 0 0), fun h _ _ _ _ ↦ (hiff _ _ _ _).mpr h⟩

/-- The wait for the daemon's block ends if that block gets its number into `blockMap`. -/
theorem Hashing.ends_of_holds (hl : ∀ p, m.held = some p → (m.chain.heap p).index = n →
    ∀ pick seed, n ∈ (daemonInsert H m.chain p pick seed).2.blockMap) (hh : m.Holds n) :
    m.Ends H n := by
  obtain ⟨p, hp, hpn⟩ := hh
  intro pick seed _ _
  rw [Hashing.finish, hp]
  exact .inl (hl p hp hpn pick seed)

/-- **A wait that leaves the queue as it is** must be for the block in front, or for the daemon's
block when no queued one has its number. -/
theorem Hashing.unmoved_iff (m : Hashing) (n : ℤ) :
    ((m.chain.Pending n ∨ m.Holds n) ∧ ∀ l p l', m.chain.blockQueue = l ++ p :: l' →
      (∀ q ∈ l, (m.chain.heap q).index ≠ n) → (m.chain.heap p).index = n →
        m.chain.blockQueue = p :: (l ++ l')) ↔
      (∃ p, m.chain.blockQueue.head? = some p ∧ (m.chain.heap p).index = n) ∨
        ¬m.chain.Pending n ∧ m.Holds n := by
  constructor
  · rintro ⟨hwaits, hfront⟩
    by_cases hp : m.chain.Pending n
    · obtain ⟨l, p, l', hq, hall, hpn⟩ := hp.exists_split
      have hmoved := hfront l p l' hq hall hpn
      exact .inl ⟨p, by rw [hmoved]; rfl, hpn⟩
    · exact .inr ⟨hp, hwaits.resolve_left hp⟩
  · rintro (⟨r, hr, hrn⟩ | ⟨hno, hh⟩)
    · refine ⟨.inl ⟨r, List.mem_of_mem_head? hr, hrn⟩, fun l p l' hq hall hpn ↦ ?_⟩
      obtain ⟨rest, hrest⟩ := List.head?_eq_some_iff.mp hr
      have hsplit : [] ++ r :: rest = l ++ p :: l' := hrest.symm.trans hq
      obtain ⟨rfl, rfl, rfl⟩ := split_unique hsplit (by simp) hrn hall hpn
      exact hrest
    · refine ⟨.inr hh, fun l p l' hq _ hpn ↦ ?_⟩
      exact absurd ⟨p, by simp [hq], hpn⟩ hno

/-- The number is noted: `attach_now` waits, and the queue stays. -/
theorem Hashing.Sound.arrives_iff_of_noted (hs : m.Sound) (hn : n ∉ m.chain.blockMap)
    (hd : m.chain.isInDaemon = n) (heq : attachNow m.chain n = (.waits n, m.chain)) :
    Arrives H m n ↔ Arrivable m n := by
  have hlands := Hashing.lands_iff (H := H) hs.linked n
  have hunmoved := Hashing.unmoved_iff m n
  have hw : (attachNow m.chain n).1 = .waits n := by rw [heq]
  have hqueue : (attachNow m.chain n).2.blockQueue = m.chain.blockQueue := by rw [heq]
  have hsame : (⟨(attachNow m.chain n).2, m.held⟩ : Hashing) = m := by rw [heq]
  have hends : ¬m.Holds n → ∀ p rest, m.chain.blockQueue = p :: rest →
      (m.chain.heap p).index = n → (m.Ends H n ↔ m.Fathered p) :=
    fun hh p rest hq hpn ↦ Hashing.ends_iff hs.linked hq hpn hn hh
  constructor
  · intro ha
    have hfront := hunmoved.mp ⟨ha.waits hw, fun l p l' hq hall hpn ↦
      hqueue.symm.trans (ha.front hw l p l' hq hall hpn)⟩
    refine ⟨fun _ _ ↦ hfront, hlands.mp ha.lands, fun _ hh l p l' hq hall hpn ↦ ?_⟩
    have hmoved := ha.front hw l p l' hq hall hpn
    have hend := ha.ends hw
    rw [hsame] at hend
    exact (hends hh p _ (hqueue.symm.trans hmoved) hpn).mp hend
  · intro ha
    obtain ⟨hwaits, hfront⟩ := hunmoved.mpr (ha.1 hn hd)
    have hland := hlands.mpr ha.2.1
    refine ⟨fun _ ↦ hwaits, fun _ l p l' hq hall hpn ↦ ?_, fun _ hp hh ↦ ?_, hland, fun _ ↦ ?_⟩
    · exact hqueue.trans (hfront l p l' hq hall hpn)
    · exact absurd hwaits (not_or.mpr ⟨hp, hh⟩)
    · rw [hsame]
      by_cases hh : m.Holds n
      · exact Hashing.ends_of_holds hland hh
      · obtain ⟨l, p, l', hq, hall, hpn⟩ := (hwaits.resolve_right hh).exists_split
        exact (hends hh p _ (hfront l p l' hq hall hpn) hpn).mpr (ha.2.2 hn hh l p l' hq hall hpn)

/-- The block is queued: `attach_now` moves it to the front and waits. -/
theorem Hashing.Sound.arrives_iff_of_moved {l l' : List BlockPtr} (hs : m.Sound)
    (hn : n ∉ m.chain.blockMap) (hd : m.chain.isInDaemon ≠ n)
    (hq : m.chain.blockQueue = l ++ p :: l') (hall : ∀ q ∈ l, (m.chain.heap q).index ≠ n)
    (hpn : (m.chain.heap p).index = n)
    (heq : attachNow m.chain n = (.waits n, { m.chain with blockQueue := p :: (l ++ l') })) :
    Arrives H m n ↔ Arrivable m n := by
  have hlands := Hashing.lands_iff (H := H) hs.linked n
  have hw : (attachNow m.chain n).1 = .waits n := by rw [heq]
  have hpending : m.chain.Pending n := ⟨p, by simp [hq], hpn⟩
  -- the number of a block the daemon holds would be noted
  have hh : ¬m.Holds n := fun ⟨q, hheld, hqn⟩ ↦ hd ((hs.noted q hheld).trans hqn)
  have hends : Hashing.Ends H ⟨(attachNow m.chain n).2, m.held⟩ n ↔ m.Fathered p := by
    have hmoved := (hs.step (hs.step_call (H := H) (c := .attachNow n) rfl)).linked
    rw [show perform H m.chain (.attachNow n) = attachNow m.chain n from rfl, heq] at hmoved
    rw [heq]
    exact Hashing.ends_iff hmoved rfl hpn hn hh
  constructor
  · intro ha
    refine ⟨fun _ hd' ↦ absurd hd' hd, hlands.mp ha.lands, fun _ _ k r k' hq' hall' hrn ↦ ?_⟩
    obtain ⟨rfl, rfl, rfl⟩ := split_unique (hq.symm.trans hq') hall hpn hall' hrn
    exact hends.mp (ha.ends hw)
  · intro ha
    refine ⟨fun _ ↦ .inl hpending, fun _ k r k' hq' hall' hrn ↦ ?_,
      fun _ hno ↦ absurd hpending hno, hlands.mpr ha.2.1, fun _ ↦ ?_⟩
    · obtain ⟨rfl, rfl, rfl⟩ := split_unique (hq.symm.trans hq') hall hpn hall' hrn
      rw [heq]
    · exact hends.mpr (ha.2.2 hn hh l p l' hq hall hpn)

/-- **When `attach_now` waits only for a block that arrives**, in any state of any run. -/
theorem exec_arrives_iff {s₀ : Chain} {es : List HashEvent}
    (h0 : initBlockchain Chain.fresh true = (.ret success, s₀))
    (h : Run.exec (Hashing.step H) (.start s₀) es = some m) (n : ℤ) :
    Arrives H m n ↔ Arrivable m n := by
  have hs := exec_sound h0 h
  have hlands := Hashing.lands_iff (H := H) hs.linked n
  rcases attachNow_spec (Hashing.linked_chain hs.linked) n with ⟨hn, heq⟩ | ⟨hn, hd, heq⟩ |
    ⟨hn, hd, hp, heq⟩ | ⟨hn, hd, l, p, l', hq, hall, hpn, heq⟩
  · -- the block is attached: no wait
    have hw : (attachNow m.chain n).1 ≠ .waits n := by simp [heq]
    exact ⟨fun ha ↦ ⟨fun hno ↦ absurd hn hno, hlands.mp ha.lands, fun hno ↦ absurd hn hno⟩,
      fun ha ↦ ⟨(absurd · hw), (absurd · hw), fun hno ↦ absurd hn hno, hlands.mpr ha.2.1,
        (absurd · hw)⟩⟩
  · exact hs.arrives_iff_of_noted hn hd heq
  · -- there is no such block: no wait
    have hw : (attachNow m.chain n).1 ≠ .waits n := by simp [heq]
    refine ⟨fun ha ↦ ⟨fun _ hd' ↦ absurd hd' hd, hlands.mp ha.lands, fun _ _ l p l' hq _ hpn ↦ ?_⟩,
      fun ha ↦ ⟨(absurd · hw), (absurd · hw), fun _ _ _ ↦ by rw [heq], hlands.mpr ha.2.1,
        (absurd · hw)⟩⟩
    exact absurd ⟨p, by simp [hq], hpn⟩ hp
  · exact hs.arrives_iff_of_moved hn hd hq hall hpn heq

theorem not_arrives_of_waits
    (h : ((attachNow m.chain n).1, decide (m.chain.Pending n), m.held) = (.waits n, false, none)) :
    ¬Arrives H m n := by
  simp only [Prod.mk.injEq, decide_eq_false_iff_not] at h
  obtain ⟨hw, hp, hheld⟩ := h
  intro ha
  rcases ha.waits hw with hp' | ⟨p, hp', -⟩
  · exact hp hp'
  · rw [hheld] at hp'
    cases hp'

/-- An event of the chain whose daemon makes an iteration in one step. -/
def HashEvent.ofEvent : Event → List HashEvent
  | .daemon pick seed => [.take, .insert pick seed]
  | e => [.call e]

/-- The daemon discards block 3. -/
def discardEvents : List HashEvent :=
  (orphanEvents ++ [Event.daemon 0 0]).flatMap HashEvent.ofEvent

/-- Before the daemon takes block 3, `attach_now` waits for it, too, and the iteration that takes it
does not attach it. -/
example :
    (Run.exec (Hashing.step plainHash) (.start (initBlockchain Chain.fresh true).2)
      (orphanEvents.flatMap HashEvent.ofEvent)).map (fun m ↦ ((attachNow m.chain 3).1,
        decide ((3 : ℤ) ∈ (daemonFunction plainHash (attachNow m.chain 3).2 0 0).2.blockMap))) =
      some (.waits 3, false) := by decide

theorem exec_discardEvents :
    ∃ m, Run.exec (Hashing.step plainHash) (.start (initBlockchain Chain.fresh true).2)
        discardEvents = some m ∧
      ((attachNow m.chain 3).1, decide (m.chain.Pending 3), m.held) = (.waits 3, false, none) := by
  rw [← Option.map_eq_some_iff]
  decide

/-- `attach_now` waits for a discarded block for ever. -/
theorem exists_not_arrives :
    ∃ s₀ m, initBlockchain Chain.fresh true = (.ret success, s₀) ∧
      Run.exec (Hashing.step plainHash) (.start s₀) discardEvents = some m ∧
        ¬Arrives plainHash m 3 := by
  obtain ⟨m, hm, h⟩ := exec_discardEvents
  exact ⟨_, m, rfl, hm, not_arrives_of_waits h⟩

theorem exec_arrives_iff_sample :
    ∃ s₀ m, Run.exec (Hashing.step plainHash) (.start s₀) discardEvents = some m ∧
      ¬Arrivable m 3 := by
  obtain ⟨m, hm, h⟩ := exec_discardEvents
  exact ⟨_, m, hm, fun ha ↦ not_arrives_of_waits h ((exec_arrives_iff rfl hm 3).mpr ha)⟩

end Blockchain
