import OsExercises.Blockchain.Defs
import OsExercises.ForMathlib.FirstGap
import OsExercises.ForMathlib.RootPath
import OsExercises.ForMathlib.Run
import Mathlib.Data.List.Perm.Subperm

/-!
# The attached blocks hang together

`Linked` holds in every state of every run, whatever the calls do to the numbers: from every
attached block the `next` pointers lead up to the genesis block, through attached blocks.

* `Linked.transfer` keeps it when blocks are detached, queued, or changed in other fields, and
  `Linked.attach` when a block is attached.
* `pruneChain_cases` and `daemonFunction_eq` say what `prune_chain` and the daemon do in a linked
  state.  In particular the marking loop of `prune_chain` always comes to an end.
* `exec_linked` is the run lemma.
-/

set_option autoImplicit false

namespace Blockchain

variable {s t : Chain} {p q r g : BlockPtr} {k : ℤ} {H : HashLib} {pick seed : ℕ} {pastEnd : ℤ}

/-! ## The invariant -/

/-- The father of a block. -/
def Chain.next (s : Chain) (p : BlockPtr) : Option BlockPtr := (s.heap p).next

/-- A block is attached when `blockMap` has it under its own number. -/
def Chain.Attached (s : Chain) (p : BlockPtr) : Prop := s.blockMap[(s.heap p).index]? = some p

/-- A pending block has this number. -/
def Chain.Pending (s : Chain) (v : ℤ) : Prop := ∃ p ∈ s.blockQueue, (s.heap p).index = v

theorem mem_blockMap (hk : s.blockMap[k]? = some p) : k ∈ s.blockMap :=
  Std.TreeMap.mem_iff_isSome_getElem?.mpr (by rw [hk]; rfl)

theorem exists_of_mem_blockMap (hk : k ∈ s.blockMap) : ∃ p, s.blockMap[k]? = some p :=
  Option.isSome_iff_exists.mp (Std.TreeMap.mem_iff_isSome_getElem?.mp hk)

/-- The attached blocks of an open chain hang together, and the pending blocks are others. -/
structure Linked (s : Chain) : Prop where
  /-- The chain is open. -/
  initiated : s.isInitiated = true
  /-- The chain is not being closed. -/
  unblocked : s.currentlyBlocked = false
  /-- A key is its block's number. -/
  key : ∀ (k : ℤ) (p : BlockPtr), s.blockMap[k]? = some p → (s.heap p).index = k
  /-- Numbers are not negative. -/
  nonneg : ∀ p, s.Attached p → 0 ≤ (s.heap p).index
  /-- The genesis block is attached and has no father. -/
  genesis : ∃ g, s.blockMap[(0 : ℤ)]? = some g ∧ s.next g = none
  /-- No other attached block is without a father. -/
  null : ∀ p, s.Attached p → s.next p = none → (s.heap p).index = 0
  /-- The way up leads through attached blocks. -/
  rooted : ∀ p, s.Attached p → ∃ l, RootPath s.next p l ∧ ∀ q ∈ l, s.Attached q
  /-- The fathers of marked blocks are marked. -/
  marks : ∀ p q, s.Attached p → (s.heap p).isInLongest = true → s.next p = some q →
    (s.heap q).isInLongest = true
  /-- The next free address is not in use. -/
  lt_brk : ∀ p, s.Attached p → p < s.brk
  /-- A block is pending once. -/
  queue_nodup : s.blockQueue.Nodup
  /-- A pending block is not attached and not marked. -/
  pending : ∀ p ∈ s.blockQueue,
    ¬s.Attached p ∧ p < s.brk ∧ (s.heap p).isInLongest = false ∧ 0 ≤ (s.heap p).index

theorem Linked.not_closed (h : Linked s) :
    ¬(!s.isInitiated || s.currentlyBlocked) = true := by simp [h.initiated, h.unblocked]

theorem Linked.attached (h : Linked s) (hk : s.blockMap[k]? = some p) : s.Attached p := by
  rw [Chain.Attached, h.key k p hk, hk]

theorem Linked.next_attached (h : Linked s) (hp : s.Attached p) (hq : s.next p = some q) :
    s.Attached q := by
  obtain ⟨l, hl, hatt⟩ := h.rooted p hp
  exact hatt q (hl.next_mem hl.mem_self hq)

/-- The block at the front of the queue is pending, so no attached block is it. -/
theorem Linked.ne_front {rest : List BlockPtr} (h : Linked s) (hq : s.blockQueue = p :: rest)
    (hr : s.Attached r) : r ≠ p := by
  rintro rfl
  exact (h.pending r (by rw [hq]; exact List.mem_cons_self)).1 hr

/-- The blocks behind the front one are other ones. -/
theorem Linked.mem_rest {rest : List BlockPtr} (h : Linked s) (hq : s.blockQueue = p :: rest)
    (hr : r ∈ rest) : r ∈ s.blockQueue ∧ r ≠ p := by
  have hnd := h.queue_nodup
  rw [hq] at hnd
  refine ⟨by rw [hq]; exact List.mem_cons_of_mem _ hr, ?_⟩
  rintro rfl
  exact (List.nodup_cons.mp hnd).1 hr

/-- The chain as it would be if it were open, not being closed, and had no pending blocks. -/
def Chain.core (s : Chain) : Chain :=
  { s with isInitiated := true, currentlyBlocked := false, blockQueue := [] }

theorem Linked.core (h : Linked s) : Linked s.core :=
  ⟨rfl, rfl, h.key, h.nonneg, h.genesis, h.null, h.rooted, h.marks, h.lt_brk, List.nodup_nil,
    fun _ hp ↦ by cases hp⟩

/-! ## Keeping the invariant -/

/-- **Detaching and queueing.**  The attached blocks that are kept must be closed under going up and
contain the genesis block; they may change in all but number and father. -/
theorem Linked.transfer (h : Linked s) {K : BlockPtr → Prop}
    (hinit : t.isInitiated = s.isInitiated) (hblk : t.currentlyBlocked = s.currentlyBlocked)
    (hmap : ∀ (k : ℤ) (p : BlockPtr),
      t.blockMap[k]? = some p ↔ s.blockMap[k]? = some p ∧ K p)
    (hgen : ∀ g, s.blockMap[(0 : ℤ)]? = some g → K g)
    (hclosed : ∀ p q, s.Attached p → K p → s.next p = some q → K q)
    (hheap : ∀ p, s.Attached p → (t.heap p).index = (s.heap p).index ∧ t.next p = s.next p)
    (hmarks : ∀ p q, s.Attached p → K p → (t.heap p).isInLongest = true →
      s.next p = some q → (t.heap q).isInLongest = true)
    (hbrk : s.brk ≤ t.brk) (hqn : t.blockQueue.Nodup)
    (hq : ∀ p ∈ t.blockQueue,
      ¬s.Attached p ∧ p < t.brk ∧ (t.heap p).isInLongest = false ∧ 0 ≤ (t.heap p).index) :
    Linked t := by
  have hatt : ∀ p, t.Attached p ↔ s.Attached p ∧ K p := fun p ↦ by
    constructor
    · intro hp
      obtain ⟨h1, h2⟩ := (hmap _ p).mp hp
      exact ⟨h.attached h1, h2⟩
    · rintro ⟨h1, h2⟩
      rw [Chain.Attached, (hheap p h1).1]
      exact (hmap _ p).mpr ⟨h1, h2⟩
  obtain ⟨g, hg, hgn⟩ := h.genesis
  refine ⟨hinit.trans h.initiated, hblk.trans h.unblocked, fun k p hk ↦ ?_,
    fun p hp ↦ (hheap p ((hatt p).mp hp).1).1 ▸ h.nonneg p ((hatt p).mp hp).1,
    ⟨g, (hmap 0 g).mpr ⟨hg, hgen g hg⟩, ?_⟩, fun p hp hn ↦ ?_, fun p hp ↦ ?_, fun p q hp hm hn ↦ ?_,
    fun p hp ↦ (h.lt_brk p ((hatt p).mp hp).1).trans_le hbrk, hqn,
    fun p hp ↦ ⟨fun hp' ↦ (hq p hp).1 ((hatt p).mp hp').1, (hq p hp).2⟩⟩
  · have h1 := ((hmap k p).mp hk).1
    rw [(hheap p (h.attached h1)).1, h.key k p h1]
  · rw [(hheap g (h.attached hg)).2, hgn]
  · have h1 := ((hatt p).mp hp).1
    rw [(hheap p h1).2] at hn
    rw [(hheap p h1).1, h.null p h1 hn]
  · obtain ⟨h1, h2⟩ := (hatt p).mp hp
    obtain ⟨l, hl, hall⟩ := h.rooted p h1
    have hkeep := hl.subset_of_closed h2 fun x y hx hxk hy ↦ hclosed x y (hall x hx) hxk hy
    exact ⟨l, hl.congr fun x hx ↦ (hheap x (hall x hx)).2,
      fun x hx ↦ (hatt x).mpr ⟨hall x hx, hkeep x hx⟩⟩
  · obtain ⟨h1, h2⟩ := (hatt p).mp hp
    rw [(hheap p h1).2] at hn
    exact hmarks p q h1 h2 hm hn

/-- **Attaching** the block `p` to the attached block `q`, under a number that is free. -/
theorem Linked.attach (h : Linked s) (hinit : t.isInitiated = s.isInitiated)
    (hblk : t.currentlyBlocked = s.currentlyBlocked)
    (hnew : (s.heap p).index ∉ s.blockMap) (hmap : t.blockMap =
      s.blockMap.insertIfNew (s.heap p).index p)
    (hp : ¬s.Attached p) (hnn : 0 ≤ (s.heap p).index) (hq : s.Attached q)
    (hheap : ∀ r, r ≠ p → t.heap r = s.heap r) (hindex : (t.heap p).index = (s.heap p).index)
    (hnext : t.next p = some q) (hmark : (t.heap p).isInLongest = false) (hlt : p < t.brk)
    (hbrk : s.brk ≤ t.brk) (hqn : t.blockQueue.Nodup) (hpq : p ∉ t.blockQueue)
    (hqueue : ∀ r ∈ t.blockQueue, r ∈ s.blockQueue) : Linked t := by
  have hget : ∀ k : ℤ, t.blockMap[k]? =
      if (s.heap p).index = k then some p else s.blockMap[k]? := fun k ↦ by
    rw [hmap, Std.TreeMap.getElem?_insertIfNew]
    simp [hnew]
  have hold : ∀ {k : ℤ} {r}, s.blockMap[k]? = some r → (s.heap p).index ≠ k ∧ r ≠ p := by
    rintro k r hr
    have hk : k ∈ s.blockMap := Std.TreeMap.mem_iff_isSome_getElem?.mpr (by rw [hr]; rfl)
    refine ⟨fun he ↦ hnew (he ▸ hk), ?_⟩
    rintro rfl
    exact hp (h.attached hr)
  have hatt : ∀ r, t.Attached r ↔ r = p ∨ s.Attached r := fun r ↦ by
    rw [Chain.Attached, hget]
    by_cases hr : r = p
    · simp [hr, hindex]
    · rw [hheap r hr]
      split
      · rename_i hk
        exact ⟨fun he ↦ absurd (Option.some.inj he).symm hr,
          fun ho ↦ ho.elim (absurd · hr) fun ha ↦ absurd hk (hold ha).1⟩
      · exact ⟨.inr, fun ho ↦ ho.resolve_left hr⟩
  have hnexts : ∀ r, s.Attached r → t.next r = s.next r := fun r hr ↦ by
    rw [Chain.next, hheap r (hold hr).2, Chain.next]
  have hroot : ∀ r, s.Attached r → ∃ l, RootPath t.next r l ∧ ∀ x ∈ l, t.Attached x := fun r hr ↦ by
    obtain ⟨l, hl, hall⟩ := h.rooted r hr
    exact ⟨l, hl.congr fun x hx ↦ hnexts x (hall x hx), fun x hx ↦ (hatt x).mpr (.inr (hall x hx))⟩
  obtain ⟨g, hg, hgn⟩ := h.genesis
  refine ⟨hinit.trans h.initiated, hblk.trans h.unblocked, fun k r hk ↦ ?_, fun r hr ↦ ?_,
    ⟨g, ?_, ?_⟩, fun r hr hn ↦ ?_, fun r hr ↦ ?_, fun r x hr hm hn ↦ ?_, fun r hr ↦ ?_, hqn,
    fun r hr ↦ ?_⟩
  · rw [hget] at hk
    split at hk
    · rename_i hk'
      rw [← Option.some.inj hk, hindex, hk']
    · rw [hheap r (hold hk).2, h.key k r hk]
  · rcases (hatt r).mp hr with rfl | hr'
    · rwa [hindex]
    · rw [hheap r (hold hr').2]
      exact h.nonneg r hr'
  · rw [hget, if_neg (hold hg).1, hg]
  · rw [hnexts g (h.attached hg), hgn]
  · rcases (hatt r).mp hr with rfl | hr'
    · simp [hnext] at hn
    · rw [hnexts r hr'] at hn
      rw [hheap r (hold hr').2, h.null r hr' hn]
  · rcases (hatt r).mp hr with rfl | hr'
    · obtain ⟨l, hl, hall⟩ := hroot q hq
      refine ⟨r :: l, .cons hnext hl, fun x hx ↦ ?_⟩
      rcases List.mem_cons.mp hx with rfl | hx
      · exact hr
      · exact hall x hx
    · exact hroot r hr'
  · rcases (hatt r).mp hr with rfl | hr'
    · simp [hmark] at hm
    · rw [hnexts r hr'] at hn
      rw [hheap r (hold hr').2] at hm
      rw [hheap x (hold (h.next_attached hr' hn)).2]
      exact h.marks r x hr' hm hn
  · rcases (hatt r).mp hr with rfl | hr'
    · exact hlt
    · exact (h.lt_brk r hr').trans_le hbrk
  · obtain ⟨h1, h2, h3⟩ := h.pending r (hqueue r hr)
    have hrp : r ≠ p := by
      rintro rfl
      exact hpq hr
    rw [hheap r hrp]
    exact ⟨fun hr' ↦ ((hatt r).mp hr').elim hrp h1, h2.trans_le hbrk, h3⟩

/-! ## Looking for a father -/

theorem mem_toList_iff (m : Std.TreeMap ℤ BlockPtr) : (k, p) ∈ m.toList ↔ m[k]? = some p :=
  Std.TreeMap.mem_toList_iff_getElem?_eq_some

/-- The greatest depth is one of an attached block, and no attached block is deeper. -/
theorem maxLength_spec (hg : s.blockMap[k]? = some g) :
    (∃ kp ∈ s.blockMap.toList, (s.heap kp.2).depth = maxLength s) ∧
      ∀ kp ∈ s.blockMap.toList, (s.heap kp.2).depth ≤ maxLength s := by
  have hne : s.blockMap.toList.map (fun kp ↦ (s.heap kp.2).depth) ≠ [] := fun hnil ↦ by
    have hmem := (mem_toList_iff s.blockMap).mpr hg
    rw [List.map_eq_nil_iff.mp hnil] at hmem
    cases hmem
  obtain ⟨m, hm⟩ := Option.ne_none_iff_exists'.mp (mt List.max?_eq_none_iff.mp hne)
  have hmax : maxLength s = m := by rw [maxLength, hm, Option.getD_some]
  obtain ⟨hmem, hle⟩ := List.max?_eq_some_iff.mp hm
  rw [hmax]
  refine ⟨?_, fun kp hkp ↦ hle _ (List.mem_map_of_mem hkp)⟩
  obtain ⟨kp, hkp, hd⟩ := List.mem_map.mp hmem
  exact ⟨kp, hkp, hd⟩

/-- **`findFather` finds a deepest attached block.** -/
theorem Linked.findFather_spec (h : Linked s) (pick : ℕ) :
    ∃ p, s.blockMap[findFather s pick]? = some p ∧
      ∀ q, s.Attached q → (s.heap q).depth ≤ (s.heap p).depth := by
  obtain ⟨g, hg, -⟩ := h.genesis
  obtain ⟨⟨kp, hkp, hd⟩, hle⟩ := maxLength_spec hg
  have hpos : 0 < (longestIndexes s).length := by
    refine List.length_pos_of_mem (List.mem_map_of_mem (a := kp) (List.mem_filter.mpr ⟨hkp, ?_⟩))
    simpa using hd
  have hlt := Nat.mod_lt pick hpos
  have hempty : s.blockMap.isEmpty = false := by
    rw [Std.TreeMap.isEmpty_eq_false_iff_exists_mem]
    exact ⟨0, Std.TreeMap.mem_iff_isSome_getElem?.mpr (by rw [hg]; rfl)⟩
  have hfind : findFather s pick ∈ longestIndexes s := by
    rw [findFather, hempty, List.getD_eq_getElem?_getD, List.getElem?_eq_getElem hlt]
    exact List.getElem_mem hlt
  obtain ⟨⟨k, p⟩, hp, hk⟩ := List.mem_map.mp hfind
  obtain ⟨hmem, hdepth⟩ := List.mem_filter.mp hp
  have hget := (mem_toList_iff s.blockMap).mp hmem
  rw [← hk, h.key k p hget]
  refine ⟨p, hget, fun q hq ↦ ?_⟩
  rw [of_decide_eq_true hdepth]
  exact hle _ ((mem_toList_iff s.blockMap).mpr hq)

/-! ## Marks -/

/-- Set the marks of some blocks. -/
def Chain.mark (s : Chain) (b : Bool) (l : List BlockPtr) : Chain :=
  { s with heap := fun p ↦ if p ∈ l then { s.heap p with isInLongest := b } else s.heap p }

theorem mark_heap (s : Chain) (b : Bool) (l : List BlockPtr) (p : BlockPtr) :
    (s.mark b l).heap p =
      { s.heap p with isInLongest := if p ∈ l then b else (s.heap p).isInLongest } := by
  rw [Chain.mark]
  by_cases hp : p ∈ l <;> simp [hp]

theorem modify_mark (s : Chain) (b : Bool) (l : List BlockPtr) (p : BlockPtr) :
    (s.modify p fun c ↦ { c with isInLongest := b }).mark b l = s.mark b (p :: l) := by
  have hheap : ((s.modify p fun c ↦ { c with isInLongest := b }).mark b l).heap =
      (s.mark b (p :: l)).heap := by
    funext q
    rw [mark_heap, mark_heap]
    by_cases hq : q = p
    · subst hq
      simp [Chain.modify]
    · simp [Chain.modify, hq]
  exact congrArg (fun heap ↦ { s with heap := heap }) hheap

theorem mark_modify (s : Chain) (b : Bool) (l : List BlockPtr) (p : BlockPtr) :
    (s.mark b l).modify p (fun c ↦ { c with isInLongest := b }) = s.mark b (l ++ [p]) := by
  have hheap : ((s.mark b l).modify p fun c ↦ { c with isInLongest := b }).heap =
      (s.mark b (l ++ [p])).heap := by
    funext q
    rw [mark_heap]
    by_cases hq : q = p
    · subst hq
      simp [Chain.modify, mark_heap]
    · simp [Chain.modify, mark_heap, hq]
  exact congrArg (fun heap ↦ { s with heap := heap }) hheap

@[simp] theorem mark_nil (s : Chain) (b : Bool) : s.mark b [] = s := by simp [Chain.mark]

theorem unmark_eq (s : Chain) (l : List (ℤ × BlockPtr)) :
    unmark s l = s.mark false (l.map Prod.snd) := by
  induction l generalizing s with
  | nil => rw [unmark, List.map_nil, mark_nil]
  | cons kp rest ih =>
    rw [unmark, ih, modify_mark, List.map_cons]

/-- **The marking loop comes to an end** and marks the path, without the genesis block. -/
theorem markLongest_eq {l : List BlockPtr} {n : ℕ} (hl : RootPath s.next p l)
    (hall : ∀ q ∈ l, s.Attached q) (hn : l.length ≤ n) :
    markLongest n s (s.heap p).index = (.ret success, s.mark true l.dropLast) := by
  induction l generalizing s p n with
  | nil => cases hl
  | cons a l ih =>
    obtain ⟨n, rfl⟩ : ∃ m, n = m + 1 := ⟨n - 1, by simp at hn; omega⟩
    rw [markLongest]
    cases hl with
    | root hnone =>
      rw [show s.blockMap[(s.heap a).index]? = some a from hall a List.mem_cons_self]
      simp only [show (s.heap a).next = none from hnone]
      simp
    | @cons _ q _ hsome hl =>
      rw [show s.blockMap[(s.heap a).index]? = some a from hall a List.mem_cons_self]
      simp only [show (s.heap a).next = some q from hsome]
      have hsame : ∀ r, ((s.modify a fun b ↦ { b with isInLongest := true }).heap r).index =
          (s.heap r).index ∧ (s.modify a fun b ↦ { b with isInLongest := true }).next r =
            s.next r := fun r ↦ by
        by_cases hr : r = a
        · subst hr
          simp [Chain.modify, Chain.next]
        · simp [Chain.modify, Chain.next, hr]
      have hne : l ≠ [] := List.ne_nil_of_mem hl.mem_self
      rw [ih (hl.congr fun r _ ↦ (hsame r).2) (fun r hr ↦ ?_) (by simpa using hn), modify_mark,
        List.dropLast_cons_of_ne_nil hne]
      rw [Chain.Attached, (hsame r).1]
      exact hall r (List.mem_cons_of_mem _ hr)

/-- The path has at most as many blocks as there are attached ones. -/
theorem length_le_size {l : List BlockPtr} (hl : l.Nodup) (hall : ∀ q ∈ l, s.Attached q) :
    l.length ≤ s.blockMap.size := by
  have hinj : (l.map fun q ↦ (s.heap q).index).Nodup := hl.map_on fun x hx y hy hxy ↦ by
    have h1 := hall x hx
    rw [Chain.Attached, hxy, hall y hy] at h1
    exact (Option.some.inj h1).symm
  have hsub : (l.map fun q ↦ (s.heap q).index) ⊆ s.blockMap.keys := fun k hk ↦ by
    obtain ⟨q, hq, rfl⟩ := List.mem_map.mp hk
    rw [Std.TreeMap.mem_keys, Std.TreeMap.mem_iff_isSome_getElem?, hall q hq]
    rfl
  have hle := (List.subperm_of_subset hinj hsub).length_le
  rwa [List.length_map, Std.TreeMap.length_keys] at hle

/-! ## Pruning -/

theorem getElem?_sweepMap {heap : BlockPtr → Block} {l : List (ℤ × BlockPtr)}
    {m : Std.TreeMap ℤ BlockPtr} : (sweepMap heap l m)[k]? = some p ↔
      m[k]? = some p ∧ ∀ q, (k, q) ∈ l → (heap q).isInLongest = true := by
  induction l generalizing m with
  | nil => simp [sweepMap]
  | cons kp l ih =>
    obtain ⟨k', q'⟩ := kp
    rw [sweepMap, ih]
    by_cases hq : (heap q').isInLongest = true
    · rw [if_pos hq]
      refine and_congr_right fun _ ↦ ⟨fun h q hmem ↦ ?_, fun h q hmem ↦ h q (.tail _ hmem)⟩
      rcases List.mem_cons.mp hmem with heq | hmem
      · cases heq
        exact hq
      · exact h q hmem
    · rw [if_neg hq, Std.TreeMap.getElem?_erase]
      by_cases hk : k' = k
      · subst hk
        simp only [Std.compare_self, if_true, reduceCtorEq, false_and, false_iff]
        exact fun h ↦ hq (h.2 q' List.mem_cons_self)
      · rw [if_neg (by simpa using hk)]
        refine and_congr_right fun _ ↦ ⟨fun h q hmem ↦ ?_, fun h q hmem ↦ h q (.tail _ hmem)⟩
        rcases List.mem_cons.mp hmem with heq | hmem
        · cases heq
          exact absurd rfl hk
        · exact h q hmem

/-- **The sweep over `blockMap` keeps the marked blocks.** -/
theorem getElem?_sweepMap_toList {heap : BlockPtr → Block} {m : Std.TreeMap ℤ BlockPtr} :
    (sweepMap heap m.toList m)[k]? = some p ↔ m[k]? = some p ∧ (heap p).isInLongest = true := by
  rw [getElem?_sweepMap]
  refine and_congr_right fun hk ↦ ⟨fun h ↦ h p ((mem_toList_iff m).mpr hk), fun hp q hq ↦ ?_⟩
  cases hk.symm.trans ((mem_toList_iff m).mp hq)
  exact hp

/-- What `prune_chain` leaves of a state in which the blocks to keep are marked, with the numbers
`v`. -/
def Chain.pruned (s : Chain) (v : List ℤ) : Chain :=
  let m := sweepMap s.heap s.blockMap.toList s.blockMap
  Chain.mark { s with vecIndex := v, blockMap := m } false (m.toList.map Prod.snd)

/-- **What `prune_chain` does before it locks `mapMutex`**: it marks the path from a deepest block
to the genesis block, and makes the sweep over `vecIndex`, which an exception may end. -/
theorem Linked.markChain_cases (h : Linked s.core) (pick : ℕ) (pastEnd : ℤ) :
    ∃ p l, s.blockMap[findFather s pick]? = some p ∧ RootPath s.next p l ∧
      (∀ q ∈ l, s.Attached q) ∧
      markChain s pick pastEnd =
        (if (sweepIndex (isInLongestAt (s.mark true l)) pastEnd s.vecIndex).1 then .ret success
          else .outOfRange,
        { s.mark true l with
          vecIndex := (sweepIndex (isInLongestAt (s.mark true l)) pastEnd s.vecIndex).2 }) := by
  obtain ⟨p, hp, -⟩ := h.findFather_spec pick
  obtain ⟨l, hl, hall⟩ := h.rooted p (h.attached hp)
  obtain ⟨g, hg, -⟩ := h.genesis
  refine ⟨p, l, hp, hl, hall, ?_⟩
  have hlast : l.dropLast ++ [g] = l := by
    obtain ⟨r, hr, hrn⟩ := hl.exists_getLast
    have hra := hall r (List.mem_of_mem_getLast? hr)
    rw [Chain.Attached, h.null r hra hrn, hg] at hra
    cases hra
    exact List.dropLast_append_getLast? g hr
  have hmark : markLongest s.blockMap.size s (findFather s pick) =
      (.ret success, s.mark true l.dropLast) := by
    have hindex : (s.heap p).index = findFather s pick := h.key _ _ hp
    rw [← hindex]
    exact markLongest_eq hl hall (length_le_size (s := s) hl.nodup hall)
  have hmap : (s.mark true l.dropLast).blockMap[(0 : ℤ)]? = some g := hg
  rw [markChain, hmark]
  simp only [hmap, mark_modify, hlast]
  rw [show (s.mark true l).vecIndex = s.vecIndex from rfl]
  generalize sweepIndex _ pastEnd _ = swept
  obtain ⟨_ | _, v⟩ := swept <;> rfl

/-- **What `prune_chain` does.**  After the marks are set, the sweep over `vecIndex` is left by an
exception, or both sweeps are made. -/
theorem Linked.pruneChain_cases (h : Linked s) (pick : ℕ) (pastEnd : ℤ) :
    ∃ p l, s.blockMap[findFather s pick]? = some p ∧ RootPath s.next p l ∧
      (∀ q ∈ l, s.Attached q) ∧
      pruneChain s pick pastEnd =
        if (sweepIndex (isInLongestAt (s.mark true l)) pastEnd s.vecIndex).1 then
          (.ret success, (s.mark true l).pruned
            (sweepIndex (isInLongestAt (s.mark true l)) pastEnd s.vecIndex).2)
        else (.outOfRange, { s.mark true l with
          vecIndex := (sweepIndex (isInLongestAt (s.mark true l)) pastEnd s.vecIndex).2 }) := by
  obtain ⟨p, l, hp, hl, hall, hmark⟩ := h.core.markChain_cases pick pastEnd
  refine ⟨p, l, hp, hl, hall, ?_⟩
  rw [pruneChain, if_neg h.not_closed, hmark]
  generalize sweepIndex _ pastEnd _ = swept
  obtain ⟨_ | _, v⟩ := swept
  · rfl
  · simp only [if_true, unmarkChain, unmark_eq]
    rfl

/-- The numbers in use and the counters do not matter. -/
theorem Linked.congr {v : List ℤ} {c d : ℤ} (h : Linked s) :
    Linked { s with vecIndex := v, isInDaemon := c, sizeCounter := d } :=
  ⟨h.initiated, h.unblocked, h.key, h.nonneg, h.genesis, h.null, h.rooted, h.marks, h.lt_brk,
    h.queue_nodup, h.pending⟩

theorem Linked.mark_path {l : List BlockPtr} (h : Linked s) (hl : RootPath s.next p l)
    (hall : ∀ q ∈ l, s.Attached q) : Linked (s.mark true l) := by
  refine h.transfer (K := fun _ ↦ True) rfl rfl (fun _ _ ↦ (and_iff_left trivial).symm)
    (fun _ _ ↦ trivial) (fun _ _ _ _ _ ↦ trivial) (fun q _ ↦ ?_) (fun q r hq _ hm hr ↦ ?_) le_rfl
    h.queue_nodup (fun q hq ↦ ?_)
  · rw [Chain.next, mark_heap]
    exact ⟨rfl, rfl⟩
  · rw [mark_heap] at hm ⊢
    by_cases hql : q ∈ l
    · simp [hl.next_mem hql hr]
    · simp only [hql, if_false] at hm
      simp [h.marks q r hq hm hr]
  · obtain ⟨h1, h2, h3⟩ := h.pending q hq
    rw [mark_heap, if_neg fun hql ↦ h1 (hall q hql)]
    exact ⟨h1, h2, h3⟩

theorem getElem?_pruned {v : List ℤ} : (s.pruned v).blockMap[k]? = some p ↔
    s.blockMap[k]? = some p ∧ (s.heap p).isInLongest = true := getElem?_sweepMap_toList

/-- What is left is not marked. -/
theorem pruned_heap {v : List ℤ} (hp : (s.pruned v).blockMap[k]? = some p) :
    ((s.pruned v).heap p).isInLongest = false := by
  have hmem : p ∈ (sweepMap s.heap s.blockMap.toList s.blockMap).toList.map Prod.snd :=
    List.mem_map.mpr ⟨(k, p), (mem_toList_iff _).mpr hp, rfl⟩
  rw [Chain.pruned, mark_heap, if_pos hmem]

theorem pruned_heap_eq (s : Chain) (v : List ℤ) (p : BlockPtr) :
    (s.pruned v).heap p =
      { s.heap p with isInLongest := ((s.pruned v).heap p).isInLongest } := by
  rw [Chain.pruned, mark_heap]

theorem Linked.pruned {v : List ℤ} (h : Linked s)
    (hg : ∀ g, s.blockMap[(0 : ℤ)]? = some g → (s.heap g).isInLongest = true) :
    Linked (s.pruned v) := by
  have hsame : ∀ p, ((s.pruned v).heap p).index = (s.heap p).index ∧
      (s.pruned v).next p = s.next p := fun p ↦ by
    rw [Chain.next, pruned_heap_eq]
    exact ⟨rfl, rfl⟩
  have hpend : ∀ p, (s.heap p).isInLongest = false → ((s.pruned v).heap p).isInLongest = false := by
    intro p hp
    rw [Chain.pruned, mark_heap]
    simp only
    split
    · rfl
    · exact hp
  refine h.transfer (K := fun p ↦ (s.heap p).isInLongest = true) rfl rfl
    (fun _ _ ↦ getElem?_pruned) hg h.marks (fun p _ ↦ hsame p) (fun p q hp hk hm _ ↦ ?_) le_rfl
    h.queue_nodup fun p hp ↦ ?_
  · rw [pruned_heap (getElem?_pruned.mpr ⟨hp, hk⟩)] at hm
    cases hm
  · obtain ⟨h1, h2, h3⟩ := h.pending p hp
    exact ⟨h1, h2, hpend p h3.1, (hsame p).1 ▸ h3.2⟩

/-- The genesis block is on every path. -/
theorem Linked.genesis_mem {l : List BlockPtr} (h : Linked s) (hl : RootPath s.next p l)
    (hall : ∀ q ∈ l, s.Attached q) (hg : s.blockMap[(0 : ℤ)]? = some g) : g ∈ l := by
  obtain ⟨r, hr, hrn⟩ := hl.exists_getLast
  have hrl := List.mem_of_mem_getLast? hr
  have hra := hall r hrl
  rw [Chain.Attached, h.null r hra hrn, hg] at hra
  cases hra
  exact hrl

/-- Marking a path and dropping the blocks that are not on it. -/
theorem Linked.mark_pruned {l : List BlockPtr} {v : List ℤ} (h : Linked s)
    (hl : RootPath s.next p l) (hall : ∀ q ∈ l, s.Attached q) :
    Linked ((s.mark true l).pruned v) := by
  refine (h.mark_path hl hall).pruned fun g hg ↦ ?_
  rw [mark_heap, if_pos (h.genesis_mem hl hall hg)]

theorem Linked.pruneChain (h : Linked s) (pick : ℕ) (pastEnd : ℤ) :
    Linked (pruneChain s pick pastEnd).2 := by
  obtain ⟨p, l, -, hl, hall, heq⟩ := h.pruneChain_cases pick pastEnd
  rw [heq]
  split
  · exact h.mark_pruned hl hall
  · exact (h.mark_path hl hall).congr

/-! ## Adding -/

/-- The number `add_block` gives out. -/
def Chain.minIdx (s : Chain) : ℤ := findMinIdxFrom 0 (s.vecIndex.insertionSort (· ≤ ·))

theorem findMinIdxFrom_eq_firstGap (i : ℤ) (l : List ℤ) : findMinIdxFrom i l = firstGap i l := by
  induction l generalizing i with
  | nil => rfl
  | cons v vs ih =>
    rw [findMinIdxFrom, firstGap, ih]
    by_cases hv : v = i
    · simp [hv]
    · simp [hv, Ne.symm hv]

/-- **`findMinIdx` finds the least number that is not listed.** -/
theorem Chain.isLeast_minIdx (hnodup : s.vecIndex.Nodup) (hnonneg : ∀ v ∈ s.vecIndex, 0 ≤ v) :
    IsLeast {v | 0 ≤ v ∧ v ∉ s.vecIndex} s.minIdx := by
  have hperm := List.perm_insertionSort (· ≤ ·) s.vecIndex
  have hsorted := List.pairwise_insertionSort (· ≤ ·) s.vecIndex
  have hnd := hperm.nodup_iff.mpr hnodup
  have hlt : (s.vecIndex.insertionSort (· ≤ ·)).Pairwise (· < ·) :=
    (hsorted.and hnd).imp fun h ↦ lt_of_le_of_ne h.1 h.2
  have hleast := isLeast_firstGap hlt fun v hv ↦ hnonneg v (hperm.mem_iff.mp hv)
  simp only [hperm.mem_iff] at hleast
  rwa [Chain.minIdx, findMinIdxFrom_eq_firstGap]

theorem Chain.minIdx_nonneg (s : Chain) : 0 ≤ s.minIdx := by
  rw [Chain.minIdx, findMinIdxFrom_eq_firstGap]
  exact le_firstGap 0 _

/-- A new block with a given number, in the queue. -/
def Chain.created (s : Chain) (data : Option (List UInt8)) (length idx fatherIdx depth : ℤ) :
    Chain :=
  { s with
    heap := Function.update s.heap s.brk (Block.new data idx fatherIdx depth length)
    brk := s.brk + 1
    vecIndex := s.vecIndex ++ [idx]
    blockQueue := s.blockQueue ++ [s.brk] }

/-- What the last part of `add_block` does. -/
theorem createBlock_eq (data : Option (List UInt8)) (length idx : ℤ) {f : ℤ}
    (hf : s.blockMap[f]? = some p) : createBlock s data length idx f =
      if data.isSome ∧ length < 0 then (.badLength, s)
      else (.ret idx, s.created data length idx f ((s.heap p).depth + 1)) := by
  rw [createBlock, hf]
  rfl

theorem created_heap_self (s : Chain) (data : Option (List UInt8)) (length idx f d : ℤ) :
    (s.created data length idx f d).heap s.brk = Block.new data idx f d length :=
  Function.update_self _ _ _

theorem created_heap_of_lt (data : Option (List UInt8)) (length idx f d : ℤ) (hp : p < s.brk) :
    (s.created data length idx f d).heap p = s.heap p := Function.update_of_ne hp.ne _ _

/-- The block `add_block` makes, with the number it finds, in the queue. -/
def Chain.added (s : Chain) (data : Option (List UInt8)) (length fatherIdx depth : ℤ) : Chain :=
  Chain.created { s with vecIndex := s.vecIndex.insertionSort (· ≤ ·) } data length s.minIdx
    fatherIdx depth

theorem added_heap_self (s : Chain) (data : Option (List UInt8)) (length f d : ℤ) :
    (s.added data length f d).heap s.brk = Block.new data s.minIdx f d length :=
  created_heap_self _ _ _ _ _ _

theorem added_heap_of_lt (data : Option (List UInt8)) (length f d : ℤ) (hp : p < s.brk) :
    (s.added data length f d).heap p = s.heap p :=
  created_heap_of_lt (s := { s with vecIndex := s.vecIndex.insertionSort (· ≤ ·) }) _ _ _ _ _ hp

section

variable {data : Option (List UInt8)} {length f d v : ℤ}

theorem index_added_self : ((s.added data length f d).heap s.brk).index = s.minIdx := by
  rw [added_heap_self]
  rfl

theorem mem_blockQueue_added :
    p ∈ (s.added data length f d).blockQueue ↔ p ∈ s.blockQueue ∨ p = s.brk := by
  change p ∈ s.blockQueue ++ [s.brk] ↔ _
  rw [List.mem_append, List.mem_singleton]

theorem mem_vecIndex_added :
    v ∈ (s.added data length f d).vecIndex ↔ v ∈ s.vecIndex ∨ v = s.minIdx := by
  change v ∈ s.vecIndex.insertionSort (· ≤ ·) ++ [s.minIdx] ↔ _
  rw [List.mem_append, (List.perm_insertionSort (· ≤ ·) s.vecIndex).mem_iff, List.mem_singleton]

/-- The number of a new block was not listed. -/
theorem nodup_vecIndex_added (hnodup : s.vecIndex.Nodup) (hnonneg : ∀ v ∈ s.vecIndex, 0 ≤ v) :
    (s.added data length f d).vecIndex.Nodup := by
  have hperm := List.perm_insertionSort (· ≤ ·) s.vecIndex
  obtain ⟨⟨-, hnew⟩, -⟩ := s.isLeast_minIdx hnodup hnonneg
  refine List.nodup_append.mpr ⟨hperm.nodup_iff.mpr hnodup, List.nodup_singleton _, ?_⟩
  rintro a ha b hb rfl
  rw [List.mem_singleton.mp hb] at ha
  exact hnew (hperm.mem_iff.mp ha)

theorem nonneg_of_mem_added (hnonneg : ∀ v ∈ s.vecIndex, 0 ≤ v)
    (hv : v ∈ (s.added data length f d).vecIndex) : 0 ≤ v := by
  rcases mem_vecIndex_added.mp hv with hv | rfl
  · exact hnonneg v hv
  · exact s.minIdx_nonneg

end

/-- **What `add_block` does.** -/
theorem Linked.addBlock_cases (h : Linked s) (data : Option (List UInt8)) (length : ℤ) (pick : ℕ) :
    ∃ p, s.blockMap[findFather s pick]? = some p ∧
      addBlock s data length pick =
        if data.isSome ∧ length < 0 then
          (.badLength, { s with vecIndex := s.vecIndex.insertionSort (· ≤ ·) })
        else (.ret s.minIdx,
          s.added data length (findFather s pick) ((s.heap p).depth + 1)) := by
  obtain ⟨p, hp, -⟩ := h.findFather_spec pick
  refine ⟨p, hp, ?_⟩
  rw [addBlock, if_neg h.not_closed]
  exact createBlock_eq (s := (findMinIdx s).2) data length s.minIdx hp

/-- A new block is pending. -/
theorem Linked.created {data : Option (List UInt8)} {length idx f d : ℤ} (h : Linked s)
    (hidx : 0 ≤ idx) : Linked (s.created data length idx f d) := by
  have hheap : ∀ {q}, q < s.brk → (s.created data length idx f d).heap q = s.heap q :=
    fun hq ↦ created_heap_of_lt _ _ _ _ _ hq
  have hnew : ¬s.Attached s.brk := fun hb ↦ (h.lt_brk _ hb).false
  refine h.transfer (K := fun _ ↦ True) rfl rfl (fun _ _ ↦ (and_iff_left trivial).symm)
    (fun _ _ ↦ trivial) (fun _ _ _ _ _ ↦ trivial) (fun q hq ↦ ?_) (fun q r hq _ hm hr ↦ ?_)
    (Nat.le_succ _) ?_ (fun q hq ↦ ?_)
  · rw [Chain.next, hheap (h.lt_brk q hq)]
    exact ⟨rfl, rfl⟩
  · rw [hheap (h.lt_brk q hq)] at hm
    rw [hheap (h.lt_brk r (h.next_attached hq hr))]
    exact h.marks q r hq hm hr
  · refine List.nodup_append.mpr ⟨h.queue_nodup, List.nodup_singleton _, fun a ha b hb ↦ ?_⟩
    rw [List.mem_singleton.mp hb]
    exact (h.pending a ha).2.1.ne
  · rcases List.mem_append.mp hq with hq | hq
    · obtain ⟨h1, h2, h3⟩ := h.pending q hq
      rw [hheap h2]
      exact ⟨h1, h2.trans (Nat.lt_succ_self _), h3⟩
    · cases List.mem_singleton.mp hq
      refine ⟨hnew, Nat.lt_succ_self _, ?_⟩
      rw [created_heap_self]
      exact ⟨rfl, hidx⟩

theorem Linked.added {data : Option (List UInt8)} {length f d : ℤ} (h : Linked s) :
    Linked (s.added data length f d) := h.congr.created s.minIdx_nonneg

theorem Linked.addBlock (h : Linked s) (data : Option (List UInt8)) (length : ℤ) (pick : ℕ) :
    Linked (addBlock s data length pick).2 := by
  obtain ⟨p, -, heq⟩ := h.addBlock_cases data length pick
  rw [heq]
  split
  · exact h.congr
  · exact h.added

/-! ## Attaching -/

/-- The number of the block to which the daemon attaches a block. -/
def Chain.fatherOf (s : Chain) (p : BlockPtr) (pick : ℕ) : ℤ :=
  if (s.heap p).attachToLongest then findFather s pick else (s.heap p).fatherIndex

/-- The daemon finds a father for this block: it looks for one, or the father is there. -/
def Chain.Fathered (s : Chain) (p : BlockPtr) : Prop :=
  (s.heap p).attachToLongest = true ∨ (s.heap p).fatherIndex ∈ s.blockMap

/-- The block after `addAndHash`. -/
def Chain.hashed (H : HashLib) (s : Chain) (p : BlockPtr) (pick seed : ℕ) : Block :=
  let father := s.blockMap[s.fatherOf p pick]?
  { s.heap p with
    depth := if (s.heap p).attachToLongest then
        match father with
        | some q => (s.heap q).depth + 1
        | none => (s.heap p).depth
      else (s.heap p).depth
    hashedData := some (H.generateHash (s.heap p).data (s.heap p).lenData
      (H.generateNonce (s.heap p).index (s.fatherOf p pick) seed))
    fatherIndex := s.fatherOf p pick
    next := match father with
      | some q => some q
      | none => (s.heap p).next }

/-- The state after an iteration of the daemon that takes `p` and leaves `rest`. -/
def Chain.processed (H : HashLib) (s : Chain) (p : BlockPtr) (rest : List BlockPtr)
    (pick seed : ℕ) : Chain :=
  { s with
    heap := Function.update s.heap p (s.hashed H p pick seed)
    blockMap := match s.blockMap[s.fatherOf p pick]? with
      | some _ => s.blockMap.insertIfNew (s.heap p).index p
      | none => s.blockMap
    blockQueue := rest
    isInDaemon := (s.heap p).index
    sizeCounter := s.sizeCounter + 1 }

theorem popBlock_head {rest : List BlockPtr} (hq : s.blockQueue = p :: rest) :
    popBlock s (s.heap p).index = (some p, { s with blockQueue := rest }) := by
  rw [popBlock, hq]
  simp

theorem Linked.findFather_ne (h : Linked s) (pick : ℕ) : findFather s pick ≠ -1 := by
  obtain ⟨p, hp, -⟩ := h.findFather_spec pick
  have hnn := h.nonneg p (h.attached hp)
  rw [h.key _ _ hp] at hnn
  omega

theorem linkBlock_eq (s : Chain) (p : BlockPtr) (f : ℤ) : linkBlock H s p f seed =
    (s.blockMap[f]?.isSome, { s with
      heap := Function.update s.heap p { s.heap p with
        hashedData := some (H.generateHash (s.heap p).data (s.heap p).lenData
          (H.generateNonce (s.heap p).index f seed))
        fatherIndex := f
        next := match s.blockMap[f]? with
          | some q => some q
          | none => (s.heap p).next } }) := by
  rw [linkBlock]
  simp only [Chain.modify]
  cases s.blockMap[f]? <;> simp

/-- What `addAndHash` does with a block that has been taken out of the queue. -/
theorem Linked.addAndHash_eq (h : Linked s) (p : BlockPtr) (rest : List BlockPtr) (b : Bool)
    (pick seed : ℕ) :
    addAndHash H { s with blockQueue := rest, currentlyBlocked := b } p pick seed =
      (.ret success, { s.processed H p rest pick seed with
        currentlyBlocked := b, sizeCounter := s.sizeCounter }) := by
  rw [addAndHash, prepareBlock]
  cases hflag : (s.heap p).attachToLongest with
  | true =>
    obtain ⟨q, hf, -⟩ := h.findFather_spec pick
    have hfind : findFather { s with
        blockQueue := rest, currentlyBlocked := b, isInDaemon := (s.heap p).index } pick =
      findFather s pick := rfl
    simp only [hflag, if_true, hfind, if_neg (h.findFather_ne pick), hf, linkBlock_eq, insertBlock,
      Chain.modify]
    simp [Chain.processed, Chain.hashed, Chain.fatherOf, hflag, hf]
  | false =>
    simp only [hflag, Bool.false_eq_true, if_false, linkBlock_eq, insertBlock]
    cases hf : s.blockMap[(s.heap p).fatherIndex]? <;>
      simp [Chain.processed, Chain.hashed, Chain.fatherOf, hflag, hf]

/-- **What an iteration of the daemon does** when the queue is not empty. -/
theorem Linked.daemonFunction_eq {rest : List BlockPtr} (h : Linked s)
    (hq : s.blockQueue = p :: rest) :
    daemonFunction H s pick seed = (.ret success, s.processed H p rest pick seed) := by
  have hhash := h.addAndHash_eq (H := H) p rest s.currentlyBlocked pick seed
  rw [daemonFunction, hq]
  simp only [List.head?_cons, popBlock_head hq, daemonInsert, hhash]
  rfl

theorem fatherOf_of_not (hflag : (s.heap p).attachToLongest = false) :
    s.fatherOf p pick = (s.heap p).fatherIndex := by
  rw [Chain.fatherOf, hflag, if_neg (by simp)]

/-- **When the block the daemon takes finds a father.** -/
theorem Linked.fatherOf_mem_iff (h : Linked s) :
    s.fatherOf p pick ∈ s.blockMap ↔ s.Fathered p := by
  rw [Chain.Fathered]
  cases hflag : (s.heap p).attachToLongest with
  | true =>
    obtain ⟨q, hq, -⟩ := h.findFather_spec pick
    rw [Chain.fatherOf, hflag, if_pos rfl]
    exact iff_of_true (mem_blockMap hq) (.inl rfl)
  | false =>
    rw [fatherOf_of_not hflag]
    simp

/-- The depth the daemon's block ends up with. -/
theorem hashed_depth (hf : s.blockMap[s.fatherOf p pick]? = some q) :
    (s.hashed H p pick seed).depth = if (s.heap p).attachToLongest then (s.heap q).depth + 1
      else (s.heap p).depth := by
  rw [Chain.hashed, hf]

theorem processed_heap_self {rest : List BlockPtr} :
    (s.processed H p rest pick seed).heap p = s.hashed H p pick seed := Function.update_self _ _ _

theorem processed_heap_of_ne {rest : List BlockPtr} (hr : r ≠ p) :
    (s.processed H p rest pick seed).heap r = s.heap r := Function.update_of_ne hr _ _

theorem getElem?_processed (H : HashLib) (seed : ℕ) (rest : List BlockPtr)
    (hf : s.blockMap[s.fatherOf p pick]? = some q) (k : ℤ) :
    (s.processed H p rest pick seed).blockMap[k]? =
      if (s.heap p).index = k ∧ (s.heap p).index ∉ s.blockMap then some p else s.blockMap[k]? := by
  rw [Chain.processed, hf]
  simp only [Std.TreeMap.getElem?_insertIfNew, Std.compare_eq_iff_eq]

/-- Which numbers are those of attached blocks after an iteration of the daemon. -/
theorem mem_processed_iff {rest : List BlockPtr} :
    k ∈ (s.processed H p rest pick seed).blockMap ↔
      k ∈ s.blockMap ∨ k = (s.heap p).index ∧ s.fatherOf p pick ∈ s.blockMap := by
  have hmem : s.fatherOf p pick ∈ s.blockMap ↔ s.blockMap[s.fatherOf p pick]?.isSome :=
    Std.TreeMap.mem_iff_isSome_getElem?
  rw [Chain.processed, hmem]
  cases s.blockMap[s.fatherOf p pick]? with
  | none => simp
  | some q =>
    simp only [Std.TreeMap.mem_insertIfNew, Std.compare_eq_iff_eq, Option.isSome_some, and_true]
    rw [or_comm, eq_comm]

theorem processed_index (H : HashLib) (s : Chain) (p : BlockPtr) (rest : List BlockPtr)
    (pick seed : ℕ) (r : BlockPtr) :
    ((s.processed H p rest pick seed).heap r).index = (s.heap r).index := by
  by_cases hr : r = p
  · rw [hr, processed_heap_self]
    rfl
  · rw [processed_heap_of_ne hr]

/-- A block that is taken gets attached: its father is there, and its number is not in use. -/
def Chain.Attaches (s : Chain) (p : BlockPtr) (pick : ℕ) : Prop :=
  s.fatherOf p pick ∈ s.blockMap ∧ (s.heap p).index ∉ s.blockMap

/-- The attached blocks after a block was taken. -/
theorem attached_processed_iff {rest : List BlockPtr} :
    (s.processed H p rest pick seed).Attached r ↔ s.Attached r ∨ r = p ∧ s.Attaches p pick := by
  rw [Chain.Attached, processed_index]
  by_cases hf : s.fatherOf p pick ∈ s.blockMap
  · obtain ⟨q, hq⟩ := exists_of_mem_blockMap hf
    rw [getElem?_processed H seed rest hq]
    by_cases hnew : (s.heap p).index ∈ s.blockMap
    · simp [Chain.Attaches, Chain.Attached, hnew]
    · by_cases hrp : r = p
      · simp [Chain.Attaches, hrp, hf, hnew]
      · have hpr : ¬p = r := Ne.symm hrp
        by_cases hk : (s.heap p).index = (s.heap r).index
        · have hno : ¬s.Attached r := fun h ↦ hnew (hk ▸ mem_blockMap h)
          simp [hk, hpr, hrp, hno, hk ▸ hnew]
        · simp [hk, hrp, Chain.Attached]
  · have hnone : s.blockMap[s.fatherOf p pick]? = none := Std.TreeMap.getElem?_eq_none hf
    rw [Chain.processed, hnone]
    simp [Chain.Attaches, Chain.Attached, hf]

/-- The father of a block that was attached. -/
theorem next_processed {rest : List BlockPtr} (hf : s.blockMap[s.fatherOf p pick]? = some q) :
    (s.processed H p rest pick seed).next p = some q := by
  rw [Chain.next, processed_heap_self, Chain.hashed, hf]

/-- When the block that is taken is not attached, the attached blocks stay what they were. -/
theorem getElem?_processed_of_not {rest : List BlockPtr} (hno : ¬s.Attaches p pick) (k : ℤ) :
    (s.processed H p rest pick seed).blockMap[k]? = s.blockMap[k]? := by
  by_cases hf : s.fatherOf p pick ∈ s.blockMap
  · obtain ⟨q, hq⟩ := exists_of_mem_blockMap hf
    rw [getElem?_processed H seed rest hq, if_neg fun hk ↦ hno ⟨hf, hk.2⟩]
  · rw [Chain.processed, Std.TreeMap.getElem?_eq_none hf]

theorem Linked.processed_of_not {rest : List BlockPtr} (h : Linked s)
    (hq : s.blockQueue = p :: rest) (hno : ¬s.Attaches p pick) :
    Linked (s.processed H p rest pick seed) := by
  have hne : ∀ r, s.Attached r → r ≠ p := fun r hr ↦ h.ne_front hq hr
  refine h.transfer (K := fun _ ↦ True) rfl rfl
    (fun k r ↦ by rw [getElem?_processed_of_not hno]; exact (and_iff_left trivial).symm)
    (fun _ _ ↦ trivial) (fun _ _ _ _ _ ↦ trivial) (fun r hr ↦ ?_) (fun r x hr _ hm hx ↦ ?_) le_rfl
    ?_ (fun r hr ↦ ?_)
  · rw [Chain.next, processed_heap_of_ne (hne r hr)]
    exact ⟨rfl, rfl⟩
  · rw [processed_heap_of_ne (hne r hr)] at hm
    rw [processed_heap_of_ne (hne x (h.next_attached hr hx))]
    exact h.marks r x hr hm hx
  · have hnd := h.queue_nodup
    rw [hq] at hnd
    exact hnd.of_cons
  · obtain ⟨hmem, hrp⟩ := h.mem_rest hq hr
    obtain ⟨h1, h2⟩ := h.pending r hmem
    rw [processed_heap_of_ne hrp]
    exact ⟨h1, h2⟩

/-- **An iteration of the daemon**: the block's father is gone, or its number is taken, and nothing
is attached, or the block is attached under its number. -/
theorem Linked.processed {rest : List BlockPtr} (h : Linked s) (hq : s.blockQueue = p :: rest) :
    Linked (s.processed H p rest pick seed) := by
  by_cases hatt : s.Attaches p pick
  · obtain ⟨h1, h2, h3, h4⟩ := h.pending p (by rw [hq]; exact List.mem_cons_self)
    obtain ⟨q, hf⟩ := exists_of_mem_blockMap hatt.1
    have hnd := h.queue_nodup
    rw [hq] at hnd
    have hmap : (s.processed H p rest pick seed).blockMap =
        s.blockMap.insertIfNew (s.heap p).index p := by rw [Chain.processed, hf]
    exact h.attach rfl rfl hatt.2 hmap h1 h4 (h.attached hf) (fun r hr ↦ processed_heap_of_ne hr)
      (by rw [processed_heap_self]; rfl) (next_processed hf) (by rw [processed_heap_self]; exact h3)
      h2 le_rfl hnd.of_cons (List.nodup_cons.mp hnd).1 fun r hr ↦ (h.mem_rest hq hr).1
  · exact h.processed_of_not hq hatt

theorem daemonFunction_nil (hq : s.blockQueue = []) :
    daemonFunction H s pick seed = (.ret success, s) := by rw [daemonFunction, hq]; rfl

theorem Linked.daemonFunction (h : Linked s) : Linked (daemonFunction H s pick seed).2 := by
  cases hq : s.blockQueue with
  | nil => rwa [daemonFunction_nil hq]
  | cons p rest =>
    rw [h.daemonFunction_eq hq]
    exact h.processed hq

/-! ## Looking for a pending block -/

theorem existBlock_eq_fail_iff : existBlock s k = fail ↔ ¬s.Pending k := by
  have hnone : (s.blockQueue.findIdx? fun p ↦ (s.heap p).index = k) = none ↔ ¬s.Pending k := by
    simp [List.findIdx?_eq_none_iff, Chain.Pending]
  rw [← hnone, existBlock]
  cases s.blockQueue.findIdx? fun p ↦ (s.heap p).index = k with
  | none => simp
  | some i =>
    have hne : (i : ℤ) ≠ fail := by
      rw [fail]
      omega
    exact iff_of_false hne (by simp)

/-- The first pending block with the number, and what is before and behind it. -/
theorem Chain.Pending.exists_split (h : s.Pending k) : ∃ l p l', s.blockQueue = l ++ p :: l' ∧
    (∀ q ∈ l, (s.heap q).index ≠ k) ∧ (s.heap p).index = k := by
  obtain ⟨q, hq, hqk⟩ := h
  obtain ⟨p, hp⟩ := Option.isSome_iff_exists.mp
    (List.find?_isSome (p := fun p ↦ decide ((s.heap p).index = k)) |>.mpr
      ⟨q, hq, decide_eq_true hqk⟩)
  obtain ⟨hpk, l, l', hl, hall⟩ := List.find?_eq_some_iff_append.mp hp
  exact ⟨l, p, l', hl, fun r hr ↦ by simpa using hall r hr, of_decide_eq_true hpk⟩

/-- **What `popBlock` does**: it takes out the first block with the number. -/
theorem popBlock_of_split {l l' : List BlockPtr} (hl : s.blockQueue = l ++ p :: l')
    (hall : ∀ q ∈ l, (s.heap q).index ≠ k) (hp : (s.heap p).index = k) :
    popBlock s k = (some p, { s with blockQueue := l ++ l' }) := by
  have hfind : s.blockQueue.find? (fun q ↦ (s.heap q).index = k) = some p :=
    List.find?_eq_some_iff_append.mpr
      ⟨decide_eq_true hp, l, l', hl, fun q hq ↦ by simpa using hall q hq⟩
  have herase : s.blockQueue.eraseP (fun q ↦ (s.heap q).index = k) = l ++ l' := by
    rw [hl, List.eraseP_append_right _ fun q hq ↦ by simpa using hall q hq]
    simp [hp]
  rw [popBlock, hfind]
  simp only [herase]

theorem popBlock_of_not_pending (h : ¬s.Pending k) : popBlock s k = (none, s) := by
  have hfind : s.blockQueue.find? (fun q ↦ (s.heap q).index = k) = none :=
    List.find?_eq_none.mpr fun q hq hqk ↦ h ⟨q, hq, of_decide_eq_true hqk⟩
  rw [popBlock, hfind]

/-! ## The other calls -/

/-- The block that `existBlock` finds has the number it was asked for. -/
theorem index_of_existBlock (hne : existBlock s k ≠ fail)
    (hget : s.blockQueue[(existBlock s k).toNat]? = some p) : (s.heap p).index = k := by
  rw [existBlock] at hne hget
  split at hne
  · rename_i i hi
    rw [hi] at hget
    obtain ⟨hlt, hk, -⟩ := List.findIdx?_eq_some_iff_getElem.mp hi
    rw [Int.toNat_natCast, List.getElem?_eq_getElem hlt, Option.some.injEq] at hget
    rw [← hget]
    exact of_decide_eq_true hk
  · exact absurd rfl hne

/-- `to_longest` flags a block with the number it is given, or leaves everything as it is. -/
theorem toLongest_flags (s : Chain) (k : ℤ) : (toLongest s k).2 = s ∨
    ∃ p ∈ s.blockQueue, (s.heap p).index = k ∧
      toLongest s k = (.ret success, s.modify p fun b ↦ { b with attachToLongest := true }) := by
  rw [toLongest]
  split
  · exact .inl rfl
  split
  · exact .inl rfl
  dsimp only
  split
  · exact .inl rfl
  rename_i hne
  split
  · exact .inl rfl
  · rename_i p hp
    exact .inr ⟨p, List.mem_of_getElem? hp, index_of_existBlock hne hp, rfl⟩

/-- What `to_longest` and `attach_now` can change: the order of the queue, and the wish of a pending
block. -/
theorem toLongest_cases (s : Chain) (k : ℤ) : (toLongest s k).2 = s ∨
    ∃ p ∈ s.blockQueue, (toLongest s k).2 = s.modify p fun b ↦ { b with attachToLongest := true } :=
  (toLongest_flags s k).imp_right fun ⟨p, hp, _, heq⟩ ↦ ⟨p, hp, by rw [heq]⟩

theorem perm_cons_eraseP {f : BlockPtr → Bool} {l : List BlockPtr} (h : l.find? f = some p) :
    (p :: l.eraseP f).Perm l := by
  induction l with
  | nil => cases h
  | cons a l ih =>
    by_cases ha : f a = true
    · rw [List.find?_cons_of_pos ha] at h
      rw [List.eraseP_cons_of_pos ha, Option.some.inj h]
    · rw [List.find?_cons_of_neg ha] at h
      rw [List.eraseP_cons_of_neg ha]
      exact (List.Perm.swap a p _).trans ((ih h).cons a)

theorem popBlock_cases (s : Chain) (k : ℤ) : popBlock s k = (none, s) ∨
    ∃ p q, (p :: q).Perm s.blockQueue ∧ popBlock s k = (some p, { s with blockQueue := q }) := by
  rw [popBlock]
  cases hf : s.blockQueue.find? fun p ↦ (s.heap p).index = k with
  | none => exact .inl rfl
  | some p => exact .inr ⟨p, _, perm_cons_eraseP hf, rfl⟩

theorem attachNow_cases (s : Chain) (k : ℤ) : ∃ q, q.Perm s.blockQueue ∧
    (attachNow s k).2 = { s with blockQueue := q } := by
  have hsame : ∃ q, q.Perm s.blockQueue ∧ s = { s with blockQueue := q } :=
    ⟨s.blockQueue, .refl _, rfl⟩
  simp only [attachNow]
  split
  · exact hsame
  split
  · exact hsame
  split
  · exact hsame
  split
  · exact hsame
  · rcases popBlock_cases s k with hpop | ⟨p, q, hperm, hpop⟩
    · rw [hpop]
      exact hsame
    · rw [hpop]
      exact ⟨p :: q, hperm, rfl⟩

/-- The wish of a block does not matter. -/
theorem Linked.flag (h : Linked s) (p : BlockPtr) :
    Linked (s.modify p fun b ↦ { b with attachToLongest := true }) := by
  have hsame : ∀ r, ((s.modify p fun b ↦ { b with attachToLongest := true }).heap r).index =
      (s.heap r).index ∧ (s.modify p fun b ↦ { b with attachToLongest := true }).next r =
        s.next r ∧ ((s.modify p fun b ↦ { b with attachToLongest := true }).heap r).isInLongest =
          (s.heap r).isInLongest := fun r ↦ by
    by_cases hr : r = p
    · subst hr
      simp [Chain.modify, Chain.next]
    · simp [Chain.modify, Chain.next, hr]
  refine h.transfer (K := fun _ ↦ True) rfl rfl (fun _ _ ↦ (and_iff_left trivial).symm)
    (fun _ _ ↦ trivial) (fun _ _ _ _ _ ↦ trivial) (fun r _ ↦ ⟨(hsame r).1, (hsame r).2.1⟩)
    (fun r x hr _ hm hx ↦ ?_) le_rfl h.queue_nodup fun r hr ↦ ?_
  · rw [(hsame r).2.2] at hm
    rw [(hsame x).2.2]
    exact h.marks r x hr hm hx
  · rw [(hsame r).1, (hsame r).2.2]
    exact h.pending r hr

/-- The order of the queue does not matter. -/
theorem Linked.perm {q : List BlockPtr} (h : Linked s) (hq : q.Perm s.blockQueue) :
    Linked { s with blockQueue := q } :=
  ⟨h.initiated, h.unblocked, h.key, h.nonneg, h.genesis, h.null, h.rooted, h.marks, h.lt_brk,
    hq.nodup_iff.mpr h.queue_nodup, fun p hp ↦ h.pending p (hq.mem_iff.mp hp)⟩

theorem Linked.toLongest (h : Linked s) (k : ℤ) : Linked (toLongest s k).2 := by
  rcases toLongest_cases s k with heq | ⟨p, hp, heq⟩
  · rwa [heq]
  · rw [heq]
    exact h.flag p

theorem Linked.attachNow (h : Linked s) (k : ℤ) : Linked (attachNow s k).2 := by
  obtain ⟨q, hq, heq⟩ := attachNow_cases s k
  rw [heq]
  exact h.perm hq

/-! ## What a call leaves alone -/

/-- The daemon's iterations are no library calls. -/
def Event.isCall : Event → Bool
  | .daemon _ _ => false
  | _ => true

/-- What a library call leaves alone. -/
structure CallFrame (s t : Chain) : Prop where
  /-- Blocks are only added. -/
  brk_le : s.brk ≤ t.brk
  /-- Blocks keep their numbers. -/
  index : ∀ r < s.brk, (t.heap r).index = (s.heap r).index
  /-- They keep the numbers of their fathers. -/
  fatherIndex : ∀ r < s.brk, (t.heap r).fatherIndex = (s.heap r).fatherIndex
  /-- Only a new block gets into the queue. -/
  queue : ∀ r ∈ t.blockQueue, r ∈ s.blockQueue ∨ r = s.brk
  /-- The number that is noted. -/
  noted : t.isInDaemon = s.isInDaemon
  /-- The counter. -/
  counter : t.sizeCounter = s.sizeCounter
  /-- Whether the chain is open. -/
  initiated : t.isInitiated = s.isInitiated

theorem CallFrame.refl (s : Chain) : CallFrame s s :=
  ⟨le_rfl, fun _ _ ↦ rfl, fun _ _ ↦ rfl, fun _ hr ↦ .inl hr, rfl, rfl, rfl⟩

theorem callFrame_toLongest (s : Chain) (k : ℤ) : CallFrame s (toLongest s k).2 := by
  rcases toLongest_cases s k with heq | ⟨q, -, heq⟩
  · rw [heq]
    exact .refl s
  · rw [heq]
    refine ⟨le_rfl, fun r _ ↦ ?_, fun r _ ↦ ?_, fun _ hr ↦ .inl hr, rfl, rfl, rfl⟩
    all_goals
      by_cases hr : r = q
      · simp [Chain.modify, hr]
      · simp [Chain.modify, hr]

theorem Linked.callFrame (h : Linked s) {e : Event} (he : e.isCall = true) :
    CallFrame s (Blockchain.perform H s e).2 := by
  match e with
  | .addBlock data length pick =>
    obtain ⟨q, -, heq⟩ := h.addBlock_cases data length pick
    rw [Blockchain.perform, heq]
    split
    · exact ⟨le_rfl, fun _ _ ↦ rfl, fun _ _ ↦ rfl, fun _ hr ↦ .inl hr, rfl, rfl, rfl⟩
    · refine ⟨Nat.le_succ _, fun r hr ↦ by rw [added_heap_of_lt _ _ _ _ hr],
        fun r hr ↦ by rw [added_heap_of_lt _ _ _ _ hr], fun r hr ↦ ?_, rfl, rfl, rfl⟩
      exact (List.mem_append.mp hr).imp_right List.mem_singleton.mp
  | .toLongest k => exact callFrame_toLongest s k
  | .attachNow k =>
    obtain ⟨q, hq, heq⟩ := attachNow_cases s k
    rw [Blockchain.perform, heq]
    exact ⟨le_rfl, fun _ _ ↦ rfl, fun _ _ ↦ rfl, fun r hr ↦ .inl (hq.mem_iff.mp hr), rfl, rfl, rfl⟩
  | .pruneChain pick pastEnd =>
    obtain ⟨q, l, -, -, -, heq⟩ := h.pruneChain_cases pick pastEnd
    rw [Blockchain.perform, heq]
    split
    · exact ⟨le_rfl, fun r _ ↦ by rw [pruned_heap_eq, mark_heap],
        fun r _ ↦ by rw [pruned_heap_eq, mark_heap], fun _ hr ↦ .inl hr, rfl, rfl, rfl⟩
    · exact ⟨le_rfl, fun r _ ↦ by rw [mark_heap], fun r _ ↦ by rw [mark_heap], fun _ hr ↦ .inl hr,
        rfl, rfl, rfl⟩

/-! ## Runs -/

/-- **The step lemma.** -/
theorem Linked.perform (h : Linked s) (e : Event) : Linked (perform H s e).2 := by
  cases e with
  | addBlock data length pick => exact h.addBlock data length pick
  | toLongest k => exact h.toLongest k
  | attachNow k => exact h.attachNow k
  | pruneChain pick pastEnd => exact h.pruneChain pick pastEnd
  | daemon pick seed => exact h.daemonFunction

/-- No call is left in a loop of its own. -/
theorem Linked.not_diverges (h : Linked s) (e : Event) :
    (Blockchain.perform H s e).1 ≠ .diverges := by
  cases e with
  | addBlock data length pick =>
    obtain ⟨p, -, heq⟩ := h.addBlock_cases data length pick
    rw [Blockchain.perform, heq]
    split <;> simp
  | toLongest k =>
    simp only [Blockchain.perform, Blockchain.toLongest]
    repeat' split
    all_goals simp
  | attachNow k =>
    simp only [Blockchain.perform, Blockchain.attachNow]
    repeat' split
    all_goals simp
  | pruneChain pick pastEnd =>
    obtain ⟨p, l, -, -, -, heq⟩ := h.pruneChain_cases pick pastEnd
    rw [Blockchain.perform, heq]
    split <;> simp
  | daemon pick seed =>
    rw [Blockchain.perform]
    cases hq : s.blockQueue with
    | nil => simp [daemonFunction_nil hq]
    | cons p rest => simp [h.daemonFunction_eq hq]

theorem Linked.step_eq (h : Linked s) (e : Event) :
    step H s e = some (Blockchain.perform H s e).2 := by
  have hne := h.not_diverges (H := H) e
  rw [step]
  revert hne
  generalize Blockchain.perform H s e = xt
  obtain ⟨x, t⟩ := xt
  cases x <;> simp

theorem linked_step {e : Event} (h : Linked s) (hst : step H s e = some t) : Linked t := by
  rw [h.step_eq] at hst
  cases hst
  exact h.perform e

/-- A chain with the genesis block alone. -/
theorem Linked.init (hmap : s.blockMap = ∅) (hqueue : s.blockQueue = [])
    (hblocked : s.currentlyBlocked = false) :
    Linked { s with
      heap := Function.update s.heap s.brk (Block.new none 0 (-1) 0 0)
      brk := s.brk + 1
      blockMap := s.blockMap.insertIfNew 0 s.brk
      vecIndex := s.vecIndex ++ [0]
      isInitiated := true
      sMutex := true } := by
  generalize ht : ({ s with
      heap := Function.update s.heap s.brk (Block.new none 0 (-1) 0 0)
      brk := s.brk + 1
      blockMap := s.blockMap.insertIfNew 0 s.brk
      vecIndex := s.vecIndex ++ [0]
      isInitiated := true
      sMutex := true } : Chain) = t
  have hget : ∀ (k : ℤ) p, t.blockMap[k]? = some p ↔ k = 0 ∧ p = s.brk := fun k p ↦ by
    rw [← ht]
    change (s.blockMap.insertIfNew 0 s.brk)[k]? = some p ↔ _
    rw [hmap, Std.TreeMap.getElem?_insertIfNew]
    by_cases hk : k = 0
    · subst hk
      simp [eq_comm]
    · simp [hk, Ne.symm hk]
  have hheap : t.heap s.brk = Block.new none 0 (-1) 0 0 := by
    rw [← ht]
    exact Function.update_self _ _ _
  have hatt : ∀ p, t.Attached p → p = s.brk := fun p hp ↦ ((hget _ p).mp hp).2
  have hnext : t.next s.brk = none := by rw [Chain.next, hheap]; rfl
  have hempty : t.blockQueue = [] := by rw [← ht]; exact hqueue
  refine ⟨by rw [← ht], by rw [← ht]; exact hblocked, fun k p hk ↦ ?_, fun p hp ↦ ?_,
    ⟨s.brk, (hget 0 _).mpr ⟨rfl, rfl⟩, hnext⟩, fun p hp _ ↦ ?_, fun p hp ↦ ?_,
    fun p q hp _ hn ↦ ?_, fun p hp ↦ ?_, by simp [hempty], by simp [hempty]⟩
  · obtain ⟨hk0, hp⟩ := (hget k p).mp hk
    rw [hp, hheap, hk0]
    rfl
  · rw [hatt p hp, hheap]
    rfl
  · rw [hatt p hp, hheap]
    rfl
  · have hpb := hatt p hp
    subst hpb
    exact ⟨[s.brk], .root hnext, by simpa using hp⟩
  · rw [hatt p hp, hnext] at hn
    cases hn
  · rw [hatt p hp, ← ht]
    exact Nat.lt_succ_self _

/-- `init_blockchain` leaves the genesis block. -/
theorem initBlockchain_linked (h : initBlockchain Chain.fresh true = (.ret success, s)) :
    Linked s := by
  rw [← (Prod.mk.inj h).2]
  exact Linked.init rfl rfl rfl

/-- **The run lemma.** -/
theorem exec_linked {s₀ : Chain} {es : List Event}
    (h0 : initBlockchain Chain.fresh true = (.ret success, s₀))
    (h : Run.exec (step H) s₀ es = some s) : Linked s :=
  Run.exec_induction (fun _ _ _ hs he ↦ linked_step hs he) (initBlockchain_linked h0) h

/-- A hash library. -/
def plainHash : HashLib := ⟨fun blockNum fatherNum _ ↦ blockNum + fatherNum, fun _ _ _ ↦ []⟩

/-- Blocks 1 and 2 are attached to the genesis block, block 3 is added with father 1, and block 1 is
pruned. -/
def orphanEvents : List Event :=
  [.addBlock none 0 0, .addBlock none 0 0, .daemon 0 0, .daemon 0 0, .addBlock none 0 0,
    .pruneChain 1 (-1)]

/-- The number of block 1 goes to a new block, which `attach_now` puts before block 3, so that the
daemon takes it first. -/
def reuseEvents : List Event := orphanEvents ++ [.addBlock none 0 0, .attachNow 1, .daemon 0 0]

end Blockchain
