import OsExercises.Blockchain.Lifecycle

/-!
# Where a block gets attached

`add_block` chooses a deepest block as the father of its block, and the block waits for the daemon
with the father's number.  `to_longest` asks for a father that is deepest at the moment of
attachment instead.

* `Follows` says that a block got the father it was promised, and `Policy` that a step keeps the
  promise.
* `Recorded` ties what was promised to what the code keeps of it: the number of the father, and the
  flag.
* `meets_policy_iff` says in which runs every promise is kept.
-/

set_option autoImplicit false

namespace Blockchain

variable {H : HashLib} {s t : Chain} {p q r : BlockPtr} {k : ℤ} {pick seed : ℕ}

/-! ## The promise -/

/-- An attached block than which no attached block is deeper. -/
def Chain.Deepest (s : Chain) (q : BlockPtr) : Prop :=
  s.Attached q ∧ ∀ r, s.Attached r → (s.heap r).depth ≤ (s.heap q).depth

/-- The block `p`, which was attached between `s` and `t`, has the father it was promised. -/
structure Follows (s t : Chain) (p : BlockPtr) (asked : Bool) (chosen : Option BlockPtr) :
    Prop where
  /-- If `to_longest` returned 0 for `p`, the father was a deepest block, and now `p` is deeper than
  all the others. -/
  longest : asked = true → (∃ q, t.next p = some q ∧ s.Deepest q) ∧
    ∀ r, t.Attached r → r ≠ p → (t.heap r).depth < (t.heap p).depth
  /-- Otherwise the father is the block that `add_block` chose. -/
  atCall : asked = false → ∃ q, chosen = some q ∧ t.next p = some q

/-- A step keeps its promises: `add_block` chooses a deepest block, and a block that gets attached
has the right father. -/
def Policy (H : HashLib) (m : Lifecycle) (e : LifeEvent) : Prop :=
  ∀ m', m.step H e = some m' →
    match e with
    | .call (.addBlock ..) => ∀ p, m.chain.brk ≤ p → p < m'.chain.brk →
      ∃ q, m'.chosen p = some q ∧ m.chain.Deepest q
    | .daemon _ _ | .drain _ _ => ∀ p, ¬m.chain.Attached p → m'.chain.Attached p →
      Follows m.chain m'.chain p (m.asked p) (m.chosen p)
    | _ => True

/-- What the promise for `p` needs, if the block gets attached without its flag: if `to_longest`
returned 0 for its number all the same, the block under its father number is deepest and `p` is
deeper; otherwise the block that `add_block` chose is still there. -/
def Fair (s : Chain) (p : BlockPtr) (asked : Bool) (chosen : Option BlockPtr) : Prop :=
  (s.heap p).attachToLongest = false →
    (asked = true → ∀ q, s.blockMap[(s.heap p).fatherIndex]? = some q →
      ∀ r, s.Attached r → (s.heap r).depth ≤ (s.heap q).depth ∧
        (s.heap r).depth < (s.heap p).depth) ∧
    (asked = false → ∃ q, chosen = some q ∧ s.Attached q)

/-- The condition on a step. -/
def Lifecycle.Fair (m : Lifecycle) : LifeEvent → Prop
  | .daemon pick _ | .drain pick _ => ∀ p, m.chain.blockQueue.head? = some p →
    m.chain.Attaches p pick → Blockchain.Fair m.chain p (m.asked p) (m.chosen p)
  | _ => True

/-! ## One block -/

section Attached

variable {rest : List BlockPtr} {asked : Bool} {chosen : Option BlockPtr}

/-- The other attached blocks were attached before. -/
theorem attached_of_processed (hr : (s.processed H p rest pick seed).Attached r) (hrp : r ≠ p) :
    s.Attached r ∧ (s.processed H p rest pick seed).heap r = s.heap r :=
  ⟨(attached_processed_iff.mp hr).resolve_right fun hr' ↦ hrp hr'.1, processed_heap_of_ne hrp⟩

/-- A block with the flag gets a father that was looked for just now. -/
theorem Linked.follows_of_flag (h : Linked s.reopened) (hatt : s.Attaches p pick)
    (hflag : (s.heap p).attachToLongest = true) (hasked : asked = true) :
    Follows s (s.processed H p rest pick seed) p asked chosen := by
  obtain ⟨f, hf⟩ := exists_of_mem_blockMap hatt.1
  have hnext : (s.processed H p rest pick seed).next p = some f := next_processed hf
  have hfather : s.fatherOf p pick = findFather s pick := by
    rw [Chain.fatherOf, hflag, if_pos rfl]
  obtain ⟨g, hg, hmax⟩ : ∃ g, s.blockMap[findFather s pick]? = some g ∧
      ∀ q, s.Attached q → (s.heap q).depth ≤ (s.heap g).depth := h.findFather_spec pick
  have hdepth : ((s.processed H p rest pick seed).heap p).depth = (s.heap f).depth + 1 := by
    rw [processed_heap_self, hashed_depth hf, hflag, if_pos rfl]
  have hfa : s.Attached f := h.attached hf
  rw [hfather, hg, Option.some.injEq] at hf
  rw [hf] at hmax
  refine ⟨fun _ ↦ ⟨⟨f, hnext, hfa, hmax⟩, fun r hr hrp ↦ ?_⟩, fun hno ↦ ?_⟩
  · obtain ⟨hra, hrh⟩ := attached_of_processed hr hrp
    rw [hrh, hdepth]
    exact Int.lt_add_one_of_le (hmax r hra)
  · rw [hasked] at hno
    cases hno

/-- A block without the flag gets the father whose number it has. -/
theorem Linked.follows_iff_of_not (h : Linked s.reopened) (hq : s.blockQueue = p :: rest)
    (hatt : s.Attaches p pick) (hflag : (s.heap p).attachToLongest = false)
    (hchosen : ∀ q, chosen = some q → (s.heap q).index = (s.heap p).fatherIndex) :
    Follows s (s.processed H p rest pick seed) p asked chosen ↔ Fair s p asked chosen := by
  obtain ⟨f, hf⟩ := exists_of_mem_blockMap hatt.1
  have hnext : (s.processed H p rest pick seed).next p = some f := next_processed hf
  have hfa : s.Attached f := h.attached hf
  have hdepth : ((s.processed H p rest pick seed).heap p).depth = (s.heap p).depth := by
    rw [processed_heap_self, hashed_depth hf, hflag, if_neg (by simp)]
  rw [fatherOf_of_not hflag] at hf
  have hreopened : s.reopened.blockQueue = p :: rest := hq
  constructor
  · rintro ⟨hlong, hcall⟩ -
    refine ⟨fun ha q hq' r hr ↦ ?_, fun ha ↦ ?_⟩
    · obtain ⟨⟨g, hg, hdeep⟩, hbelow⟩ := hlong ha
      have hrp : r ≠ p := h.ne_front hreopened hr
      rw [hnext, Option.some.injEq] at hg
      rw [hf, Option.some.injEq] at hq'
      have hlt := hbelow r (attached_processed_iff.mpr (.inl hr)) hrp
      rw [processed_heap_of_ne hrp, hdepth] at hlt
      exact ⟨by rw [← hq', hg]; exact hdeep.2 r hr, hlt⟩
    · obtain ⟨g, hg, hgn⟩ := hcall ha
      rw [hnext, Option.some.injEq] at hgn
      exact ⟨f, by rw [hg, hgn], hfa⟩
  · intro hfair
    obtain ⟨hlong, hcall⟩ := hfair hflag
    refine ⟨fun ha ↦ ⟨⟨f, hnext, hfa, fun r hr ↦ (hlong ha f hf r hr).1⟩, fun r hr hrp ↦ ?_⟩,
      fun ha ↦ ?_⟩
    · obtain ⟨hra, hrh⟩ := attached_of_processed hr hrp
      rw [hrh, hdepth]
      exact (hlong ha f hf r hra).2
    · obtain ⟨g, hg, hga⟩ := hcall ha
      rw [Chain.Attached, hchosen g hg, hf] at hga
      exact ⟨g, hg, hnext.trans hga⟩

/-- **When a block that is taken and gets attached has the father it was promised.** -/
theorem Linked.follows_iff (h : Linked s.reopened) (hq : s.blockQueue = p :: rest)
    (hatt : s.Attaches p pick) (hflag : (s.heap p).attachToLongest = true → asked = true)
    (hchosen : ∀ q, chosen = some q → (s.heap q).index = (s.heap p).fatherIndex) :
    Follows s (s.processed H p rest pick seed) p asked chosen ↔ Fair s p asked chosen := by
  by_cases hfl : (s.heap p).attachToLongest = true
  · exact iff_of_true (h.follows_of_flag hatt hfl (hflag hfl)) fun hno ↦ absurd hfl (by simp [hno])
  · exact h.follows_iff_of_not hq hatt (Bool.eq_false_iff.mpr hfl) hchosen

end Attached

/-! ## What was promised -/

/-- What was written down agrees with what the code keeps of it. -/
structure Lifecycle.Recorded (m : Lifecycle) : Prop where
  /-- Nothing was asked for blocks to come. -/
  made : ∀ p, m.asked p = true → p < m.chain.brk
  /-- A pending block with the flag was asked for. -/
  flagged : ∀ p ∈ m.chain.blockQueue, (m.chain.heap p).attachToLongest = true → m.asked p = true
  /-- A pending block has the number of its chosen father. -/
  father : ∀ p ∈ m.chain.blockQueue, ∃ q, m.chosen p = some q ∧ q < m.chain.brk ∧
    (m.chain.heap q).index = (m.chain.heap p).fatherIndex

variable {m m' : Lifecycle} {e : LifeEvent}

theorem Lifecycle.Sound.lt_brk (hs : m.Sound) (hp : p ∈ m.chain.blockQueue) : p < m.chain.brk := by
  cases hinit : m.chain.isInitiated with
  | true => exact ((hs.linked hinit).pending p hp).2.1
  | false =>
    rw [(hs.shut hinit).queue] at hp
    cases hp

/-- Taking blocks out of the queue, and changing others, does not matter. -/
theorem Lifecycle.Recorded.transfer (hr : m.Recorded) (hchosen : m'.chosen = m.chosen)
    (hasked : m'.asked = m.asked) (hbrk : m.chain.brk ≤ m'.chain.brk)
    (hindex : ∀ r < m.chain.brk, (m'.chain.heap r).index = (m.chain.heap r).index)
    (hqueue : ∀ r ∈ m'.chain.blockQueue, r ∈ m.chain.blockQueue ∧
      (m'.chain.heap r).attachToLongest = (m.chain.heap r).attachToLongest ∧
        (m'.chain.heap r).fatherIndex = (m.chain.heap r).fatherIndex) : m'.Recorded := by
  refine ⟨fun p hp ↦ ?_, fun p hp hflag ↦ ?_, fun p hp ↦ ?_⟩
  · rw [hasked] at hp
    exact (hr.made p hp).trans_le hbrk
  · obtain ⟨hpm, hflag', -⟩ := hqueue p hp
    rw [hasked]
    exact hr.flagged p hpm (hflag'.symm.trans hflag)
  · obtain ⟨hpm, -, hfather⟩ := hqueue p hp
    obtain ⟨q, hq, hqb, hqi⟩ := hr.father p hpm
    refine ⟨q, by rw [hchosen]; exact hq, hqb.trans_le hbrk, ?_⟩
    rw [hindex q hqb, hfather]
    exact hqi

/-- `add_block` writes down the father it chooses. -/
theorem Lifecycle.Recorded.added (hr : m.Recorded) (hs : m.Sound)
    {data : Option (List UInt8)} {length d : ℤ} {f : BlockPtr}
    (hf : m.chain.blockMap[k]? = some f) (hfb : f < m.chain.brk)
    (hfk : (m.chain.heap f).index = k) :
    Lifecycle.Recorded { m with
      chain := m.chain.added data length k d
      chosen := Function.update m.chosen m.chain.brk m.chain.blockMap[k]? } := by
  refine ⟨fun p hp ↦ (hr.made p hp).trans (Nat.lt_succ_self _), fun p hp hflag ↦ ?_, fun p hp ↦ ?_⟩
  · rcases List.mem_append.mp hp with hp | hp
    · rw [added_heap_of_lt _ _ _ _ (hs.lt_brk hp)] at hflag
      exact hr.flagged p hp hflag
    · rw [List.mem_singleton.mp hp, added_heap_self] at hflag
      cases hflag
  · rcases List.mem_append.mp hp with hp | hp
    · obtain ⟨q, hq, hqb, hqi⟩ := hr.father p hp
      refine ⟨q, ?_, hqb.trans (Nat.lt_succ_self _), ?_⟩
      · dsimp only
        rw [Function.update_of_ne (hs.lt_brk hp).ne]
        exact hq
      · rw [added_heap_of_lt _ _ _ _ hqb, added_heap_of_lt _ _ _ _ (hs.lt_brk hp)]
        exact hqi
    · rw [List.mem_singleton.mp hp]
      refine ⟨f, ?_, hfb.trans (Nat.lt_succ_self _), ?_⟩
      · dsimp only
        rw [Function.update_self]
        exact hf
      · rw [added_heap_of_lt _ _ _ _ hfb, added_heap_self]
        exact hfk

/-- `to_longest` writes down that it returned 0. -/
theorem Lifecycle.Recorded.toLongest (hr : m.Recorded) (hs : m.Sound) (k : ℤ) :
    (m.called (.toLongest k) (toLongest m.chain k).1 (toLongest m.chain k).2).Recorded := by
  have hmade : ∀ p, (m.asked p ||
      decide (p ∈ m.chain.blockQueue ∧ (m.chain.heap p).index = k)) = true →
        p < m.chain.brk := fun p hp ↦ by
    rw [Bool.or_eq_true, decide_eq_true_eq] at hp
    exact hp.elim (hr.made p) fun hp ↦ hs.lt_brk hp.1
  rw [Lifecycle.called]
  rcases toLongest_flags m.chain k with heq | ⟨q, hq, hqk, heq⟩
  · rw [heq]
    split
    · exact ⟨hmade, fun p hp hflag ↦ by simp [hr.flagged p hp hflag], hr.father⟩
    · exact ⟨hr.made, hr.flagged, hr.father⟩
  · rw [heq, if_pos rfl]
    have hfields : ∀ r, ((m.chain.modify q fun b ↦ { b with attachToLongest := true }).heap r).index
        = (m.chain.heap r).index ∧
      ((m.chain.modify q fun b ↦ { b with attachToLongest := true }).heap r).fatherIndex =
        (m.chain.heap r).fatherIndex := fun r ↦ by
      by_cases hrq : r = q
      · simp [Chain.modify, hrq]
      · simp [Chain.modify, hrq]
    refine ⟨hmade, fun p hp hflag ↦ ?_, fun p hp ↦ ?_⟩
    · by_cases hpq : p = q
      · simp [hpq, hq, hqk]
      · rw [show (m.chain.modify q fun b ↦ { b with attachToLongest := true }).heap p =
          m.chain.heap p from Function.update_of_ne hpq _ _] at hflag
        simp [hr.flagged p hp hflag]
    · obtain ⟨x, hx, hxb, hxi⟩ := hr.father p hp
      refine ⟨x, hx, hxb, ?_⟩
      rw [(hfields x).1, (hfields p).2]
      exact hxi

theorem Lifecycle.Recorded.call (hr : m.Recorded) (hs : m.Sound) {c : Event}
    (hc : c.isCall = true) :
    (m.called c (perform H m.chain c).1 (perform H m.chain c).2).Recorded := by
  by_cases hopen : (!m.chain.isInitiated || m.chain.currentlyBlocked) = true
  · rcases perform_of_closed (H := H) hopen hc with heq | ⟨k, rfl⟩
    · rw [heq]
      cases c with
      | addBlock =>
        rw [Lifecycle.called, if_pos rfl]
        exact hr
      | toLongest k =>
        have hlong := hr.toLongest hs k
        rwa [show (Blockchain.toLongest m.chain k).2 = m.chain from heq] at hlong
      | attachNow | pruneChain => exact hr
      | daemon => cases hc
    · exact hr.toLongest hs k
  have hlinked := hs.linked_of_open hopen
  cases c with
  | addBlock data length pick =>
    obtain ⟨f, hf, heq⟩ := hlinked.addBlock_cases data length pick
    rw [perform, heq]
    split
    · rw [Lifecycle.called, if_pos rfl]
      exact hr.transfer rfl rfl le_rfl (fun _ _ ↦ rfl) fun _ hp ↦ ⟨hp, rfl, rfl⟩
    · rw [Lifecycle.called]
      dsimp only
      rw [if_neg (show (m.chain.added data length (findFather m.chain pick) _).brk ≠ m.chain.brk
        from Nat.succ_ne_self _)]
      exact hr.added hs hf (hlinked.lt_brk f (hlinked.attached hf)) (hlinked.key _ f hf)
  | toLongest k => exact hr.toLongest hs k
  | attachNow k =>
    obtain ⟨q, hq, heq⟩ := attachNow_cases m.chain k
    rw [perform, heq]
    exact hr.transfer rfl rfl le_rfl (fun _ _ ↦ rfl) fun _ hp ↦ ⟨hq.mem_iff.mp hp, rfl, rfl⟩
  | pruneChain pick pastEnd =>
    obtain ⟨f, l, -, -, -, heq⟩ := hlinked.pruneChain_cases pick pastEnd
    rw [perform, heq]
    split
    · refine hr.transfer rfl rfl le_rfl (fun r _ ↦ ?_) fun r hp ↦ ⟨hp, ?_, ?_⟩
      · rw [Lifecycle.called_chain, pruned_heap_eq, mark_heap]
      · rw [Lifecycle.called_chain, pruned_heap_eq, mark_heap]
      · rw [Lifecycle.called_chain, pruned_heap_eq, mark_heap]
    · refine hr.transfer rfl rfl le_rfl (fun r _ ↦ ?_) fun r hp ↦ ⟨hp, ?_, ?_⟩
      · rw [Lifecycle.called_chain, mark_heap]
      · rw [Lifecycle.called_chain, mark_heap]
      · rw [Lifecycle.called_chain, mark_heap]
  | daemon => cases hc

/-- Taking the front block leaves the records of the others right. -/
theorem Lifecycle.Recorded.took {rest : List BlockPtr} (hr : m.Recorded)
    (hs : m.Sound) (hinit : m.chain.isInitiated = true) (hq : m.chain.blockQueue = p :: rest)
    (c : ℤ) : (m.took { m.chain.processed H p rest pick seed with sizeCounter := c }).Recorded := by
  have hreopened : m.chain.reopened.blockQueue = p :: rest := hq
  refine hr.transfer rfl rfl le_rfl (fun r _ ↦ ?_) fun r hrm ↦ ?_
  · exact processed_index H m.chain p rest pick seed r
  · obtain ⟨hmem, hrp⟩ := (hs.linked hinit).mem_rest hreopened hrm
    rw [Lifecycle.took, processed_heap_of_ne hrp]
    exact ⟨hmem, rfl, rfl⟩

/-- **The step lemma.** -/
theorem Lifecycle.Recorded.step (hr : m.Recorded) (hs : m.Sound) (hst : m.step H e = some m') :
    m'.Recorded := by
  cases hs.moves hst with
  | opened created hno =>
    have hnil : m.chain.opened.blockQueue = [] := (hs.shut hno).queue
    refine ⟨fun p hp ↦ (hr.made p hp).trans (Nat.lt_succ_self _), fun p hp ↦ ?_, fun p hp ↦ ?_⟩
    · rw [hnil] at hp
      cases hp
    · rw [hnil] at hp
      cases hp
  | refused created b => exact hr.transfer rfl rfl le_rfl (fun _ _ ↦ rfl) fun _ hp ↦ ⟨hp, rfl, rfl⟩
  | called c hc => exact hr.call hs hc
  | idle pick seed hq => exact hr
  | took p rest pick seed hinit hq => exact hr.took hs hinit hq _
  | closed =>
    have hclose : ∀ u : Chain, (closeChain u).heap = u.heap ∧ (closeChain u).brk = u.brk ∧
        (closeChain u).blockQueue = u.blockQueue := fun u ↦ by
      rw [closeChain]
      split <;> exact ⟨rfl, rfl, rfl⟩
    obtain ⟨hheap, hbrk, hqueue⟩ := hclose m.chain
    refine hr.transfer rfl rfl hbrk.ge (fun r _ ↦ by rw [hheap]) fun r hp ↦ ?_
    rw [hqueue] at hp
    exact ⟨hp, by rw [hheap], by rw [hheap]⟩
  | drained p rest pick seed hinit hq => exact hr.took hs hinit hq _
  | finished hq => exact hr.transfer rfl rfl le_rfl (fun _ _ ↦ rfl) fun _ hp ↦ ⟨hp, rfl, rfl⟩

theorem Lifecycle.fresh_recorded : Lifecycle.fresh.Recorded := by
  refine ⟨fun p hp ↦ ?_, fun p hp ↦ ?_, fun p hp ↦ ?_⟩ <;> cases hp

/-! ## Runs -/

/-- The only block that taking one can attach is that one. -/
theorem Lifecycle.Recorded.follows_processed_iff {rest : List BlockPtr} (hr : m.Recorded)
    (hs : m.Sound) (hinit : m.chain.isInitiated = true) (hq : m.chain.blockQueue = p :: rest)
    (pick seed : ℕ) :
    (∀ r, ¬m.chain.Attached r → (m.chain.processed H p rest pick seed).Attached r →
        Follows m.chain (m.chain.processed H p rest pick seed) r (m.asked r) (m.chosen r)) ↔
      ∀ r, m.chain.blockQueue.head? = some r → m.chain.Attaches r pick →
        Blockchain.Fair m.chain r (m.asked r) (m.chosen r) := by
  have hmem : p ∈ m.chain.blockQueue := by rw [hq]; exact List.mem_cons_self
  have hiff : ∀ hatt : m.chain.Attaches p pick,
      Follows m.chain (m.chain.processed H p rest pick seed) p (m.asked p) (m.chosen p) ↔
        Blockchain.Fair m.chain p (m.asked p) (m.chosen p) := fun hatt ↦ by
    refine (hs.linked hinit).follows_iff hq hatt (hr.flagged p hmem) fun q hc ↦ ?_
    obtain ⟨x, hx, -, hxi⟩ := hr.father p hmem
    rw [hc, Option.some.injEq] at hx
    rw [hx]
    exact hxi
  constructor
  · intro h r hr' hatt
    rw [hq, List.head?_cons, Option.some.injEq] at hr'
    subst hr'
    have hpend : ¬m.chain.Attached p := ((hs.linked hinit).pending p hmem).1
    exact (hiff hatt).mp (h p hpend (attached_processed_iff.mpr (.inr ⟨rfl, hatt⟩)))
  · intro h r hno hra
    obtain ⟨rfl, hatt⟩ := (attached_processed_iff.mp hra).resolve_left hno
    exact (hiff hatt).mpr (h r (by rw [hq]; rfl) hatt)

/-- `add_block` chooses a deepest block. -/
theorem Lifecycle.Sound.deepest_chosen (hs : m.Sound) {data : Option (List UInt8)} {length : ℤ}
    (hp : m.chain.brk ≤ p)
    (hp' : p < (Blockchain.perform H m.chain (.addBlock data length pick)).2.brk) :
    ∃ q, (m.called (.addBlock data length pick)
      (Blockchain.perform H m.chain (.addBlock data length pick)).1
      (Blockchain.perform H m.chain (.addBlock data length pick)).2).chosen p = some q ∧
        m.chain.Deepest q := by
  by_cases hopen : (!m.chain.isInitiated || m.chain.currentlyBlocked) = true
  · rcases perform_of_closed (H := H) (e := .addBlock data length pick) hopen rfl with heq | ⟨k, hk⟩
    · rw [heq] at hp'
      exact absurd hp' (not_lt.mpr hp)
    · cases hk
  have hlinked := hs.linked_of_open hopen
  obtain ⟨f, hf, hmax⟩ := hlinked.findFather_spec pick
  obtain ⟨g, hg, heq⟩ := hlinked.addBlock_cases data length pick
  rw [Blockchain.perform, heq] at hp' ⊢
  split at hp'
  · exact absurd hp' (not_lt.mpr hp)
  · rename_i hgood
    have hpb : p = m.chain.brk := le_antisymm (Nat.lt_succ_iff.mp hp') hp
    rw [if_neg hgood, Lifecycle.called]
    dsimp only
    rw [if_neg (show (m.chain.added data length (findFather m.chain pick) _).brk ≠ m.chain.brk
      from Nat.succ_ne_self _), hpb]
    exact ⟨f, (Function.update_self ..).trans hf, hlinked.attached hf, hmax⟩

/-- **Which steps keep their promises.** -/
theorem Lifecycle.Recorded.policy_iff (hr : m.Recorded) (hs : m.Sound)
    (hst : m.step H e = some m') : Policy H m e ↔ m.Fair e := by
  have hstep : ∀ {P : Lifecycle → Prop}, (∀ u, m.step H e = some u → P u) ↔ P m' := by
    intro P
    rw [hst]
    exact ⟨fun h ↦ h m' rfl, fun h u hu ↦ Option.some.inj hu ▸ h⟩
  rw [Policy, hstep]
  cases hs.moves hst with
  | opened created hno => exact Iff.rfl
  | refused created b => exact Iff.rfl
  | called c hc =>
    refine iff_of_true ?_ trivial
    match c with
    | .addBlock data length pick =>
      intro p hp hp'
      rw [Lifecycle.called_chain] at hp'
      exact hs.deepest_chosen hp hp'
    | .toLongest _ | .attachNow _ | .pruneChain .. => trivial
  | idle pick seed hq =>
    refine iff_of_true (fun p hno hp ↦ absurd hp hno) fun p hp ↦ ?_
    rw [hq] at hp
    cases hp
  | took p rest pick seed hinit hq => exact hr.follows_processed_iff hs hinit hq pick seed
  | closed => exact Iff.rfl
  | drained p rest pick seed hinit hq =>
    refine Iff.trans (forall₃_congr fun r _ _ ↦ ?_)
      (hr.follows_processed_iff (H := H) hs hinit hq pick seed)
    exact ⟨fun h ↦ ⟨h.longest, h.atCall⟩, fun h ↦ ⟨h.longest, h.atCall⟩⟩
  | finished hq => exact Iff.rfl

/-- **Every block gets the father it was promised in exactly the runs in which an unflagged block
is attached only while the block that `add_block` chose is still there.** -/
theorem meets_policy_iff {es : List LifeEvent} :
    Run.Meets (Lifecycle.step H) (Policy H) .fresh es ↔
      Run.Meets (Lifecycle.step H) Lifecycle.Fair .fresh es :=
  Run.meets_congr (I := fun m ↦ Lifecycle.Sound m ∧ Lifecycle.Recorded m)
    (fun _ _ _ hm hst ↦ ⟨hm.1.step hst, hm.2.step hm.1 hst⟩)
    (fun _ _ _ hm hst ↦ hm.2.policy_iff hm.1 hst)
    ⟨Lifecycle.fresh_sound, Lifecycle.fresh_recorded⟩

/-- The daemon takes block 3 after the number of its father has gone to a new block. -/
theorem exec_reuseEvents :
    ∃ m m', Run.exec (Lifecycle.step plainHash) .fresh (openedEvents reuseEvents) = some m ∧
      m.step plainHash (.daemon 0 0) = some m' ∧
      (m.chain.blockMap[(3 : ℤ)]?, m'.chain.blockMap[(3 : ℤ)]?, (m.chain.heap 3).index,
        (m'.chain.heap 3).index) = (none, some 3, 3, 3) ∧
      (m.asked 3, m.chosen 3, m'.chain.next 3) = (false, some 1, some 4) := by
  have h : ((Run.exec (Lifecycle.step plainHash) .fresh (openedEvents reuseEvents)).bind fun m ↦
      (m.step plainHash (.daemon 0 0)).map fun m' ↦
        ((m.chain.blockMap[(3 : ℤ)]?, m'.chain.blockMap[(3 : ℤ)]?, (m.chain.heap 3).index,
          (m'.chain.heap 3).index), (m.asked 3, m.chosen 3, m'.chain.next 3))) =
      some ((none, some 3, 3, 3), (false, some 1, some 4)) := by
    decide
  obtain ⟨m, hm, h⟩ := Option.bind_eq_some_iff.mp h
  obtain ⟨m', hm', h⟩ := Option.map_eq_some_iff.mp h
  exact ⟨m, m', hm, hm', Prod.mk.inj h⟩

/-- Block 3 gets another father than `add_block` chose. -/
theorem exists_not_policy :
    ∃ m, Run.exec (Lifecycle.step plainHash) .fresh (openedEvents reuseEvents) = some m ∧
      ¬Policy plainHash m (.daemon 0 0) := by
  obtain ⟨m, m', hm, hm', hmap, hnext⟩ := exec_reuseEvents
  simp only [Prod.mk.injEq] at hmap hnext
  obtain ⟨hbefore, hafter, hidx, hidx'⟩ := hmap
  obtain ⟨hasked, hchosen, hnext⟩ := hnext
  refine ⟨m, hm, fun hpol ↦ ?_⟩
  have hnew : ¬m.chain.Attached 3 := by
    rw [Chain.Attached, hidx, hbefore]
    simp
  have hatt : m'.chain.Attached 3 := by rw [Chain.Attached, hidx', hafter]
  obtain ⟨q, hq, hnext'⟩ := (hpol m' hm' 3 hnew hatt).atCall hasked
  rw [hchosen, Option.some.injEq] at hq
  rw [hnext, Option.some.injEq, ← hq] at hnext'
  exact absurd hnext' (by decide)

end Blockchain
