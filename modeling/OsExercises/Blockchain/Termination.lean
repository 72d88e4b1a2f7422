import Mathlib.Algebra.BigOperators.Group.Finset.Basic
import Mathlib.Algebra.Order.BigOperators.Group.Finset
import OsExercises.Blockchain.Races

/-!
# The closing of a chain comes to an end

While a chain is being closed, the daemons leave their loops, new calls return at once, and the
closing thread empties the queue.  So the threads have only so much left to do, and there is always
one that can do it.

* `Place.effort` and `Program.work` say how much there is left to do.
* `closing_ends`: as long as the closing lasts, some thread can go on, and the threads take at most
  so many steps, whatever their order, and a few more for each call that is made meanwhile.
-/

set_option autoImplicit false

namespace Blockchain

variable {H : HashLib} {s t : Chain} {p : BlockPtr} {k : ℤ} {pick seed : ℕ} {pastEnd : ℤ}

/-- How many steps a thread can take before it ends, while a chain is being closed.  A block that is
taken from the queue brings five more, and one that is put there takes five away. -/
def Place.effort : Place → ℕ
  | .unborn | .ended => 0
  -- a daemon tests the flag before it goes round again
  | .head => 1
  | .test => 4
  | .lockQueue .daemon => 3
  | .take .daemon => 2
  | .lockMap .daemon _ => 6
  | .insert .daemon _ => 5
  | .unlockMap .daemon => 4
  | .hashed .daemon => 3
  | .unlockQueue .daemon => 2
  -- a closing thread goes round until the queue is empty
  | .lockQueue .closer => 4
  | .take .closer => 3
  | .lockMap .closer _ => 7
  | .insert .closer _ => 6
  | .unlockMap .closer => 5
  | .hashed .closer => 4
  | .unlockQueue .closer => 2
  | .reset => 1
  -- `add_block` returns at once, unless it has made its test before
  | .number .. => 1
  | .lockFather .. => 9
  | .father .. => 8
  | .unlockFather .. => 7
  | .create .. => 6
  -- and so does `prune_chain`
  | .mark => 1
  | .lockSweep => 4
  | .sweep => 3
  | .unlockSweep => 2
  | .unmark => 1
  | .join => 2
  | .joining _ => 1

/-- Is it a step of a thread? -/
def ProgramEvent.isRun : ProgramEvent → Bool
  | .run .. => true
  | _ => false

namespace Program

variable {m m' n : Program} {i j : ThreadId} {l : Place} {a : Mutex} {e : ProgramEvent}

/-- What a thread and the queue have left to do. -/
def load (m : Program) (i : ThreadId) : ℕ :=
  5 * m.chain.blockQueue.length + (m.place i).effort + if m.crash = none then 1 else 0

/-- What all threads have left to do. -/
def work (m : Program) : ℕ :=
  5 * m.chain.blockQueue.length + ∑ i ∈ Finset.range m.made, (m.place i).effort +
    if m.crash = none then 1 else 0

/-! ## What a step of a thread takes away -/

theorem load_leave (s : Chain) : (m.leave i s l).load i =
    5 * s.blockQueue.length + l.effort + if m.crash = none then 1 else 0 := by
  rw [load, leave_place_self]
  rfl

theorem load_goto : (m.goto i l).load i =
    5 * m.chain.blockQueue.length + l.effort + if m.crash = none then 1 else 0 :=
  load_leave m.chain

theorem load_unlock : (m.unlock i a l).load i =
    5 * m.chain.blockQueue.length + l.effort + if m.crash = none then 1 else 0 :=
  load_leave m.chain

theorem load_crash_lt (hc : m.crash = none) (c : Crash) :
    ({ m with crash := some c } : Program).load i < m.load i := by
  simp [load, hc]

theorem load_lock_lt (hc : m.crash = none) (hl : l.effort < (m.place i).effort)
    (h : m.lock i a l = some m') : m'.load i < m.load i := by
  rw [lock] at h
  split at h
  · cases h
    exact load_crash_lt hc _
  · split at h
    · cases h
    · cases h
      change (m.goto i l).load i < m.load i
      rw [load_goto, load]
      omega

/-- A worker takes a block, or finds that there is none. -/
theorem load_take_lt {w : Worker} (hc : m.crash = none) (hp : m.place i = .take w) :
    (m.take i H w pick seed).load i < m.load i := by
  have hload : m.load i = 5 * m.chain.blockQueue.length + (Place.take w).effort + 1 := by
    rw [load, hp, if_pos hc]
  unfold take
  cases hq : m.chain.blockQueue with
  | nil =>
    cases w with
    | daemon => exact load_crash_lt hc _
    | closer =>
      simp only [List.head?_nil]
      rw [hload, load_goto, if_pos hc, hq]
      simp [Place.effort]
  | cons q rest =>
    simp only [List.head?_cons, popBlock_head hq]
    have hprep := prepareBlock_prepared H { m.chain with blockQueue := rest } q pick seed
    generalize prepareBlock H _ q pick seed = r at hprep
    obtain ⟨x, linked, t⟩ := r
    have hqueue : t.blockQueue = rest := hprep.queue
    cases x with
    | ret v =>
      cases linked with
      | true =>
        simp only
        rw [hload, load_leave, if_pos hc, hq, hqueue, List.length_cons]
        cases w <;> simp only [Place.effort] <;> omega
      | false =>
        simp only
        rw [hload, load_leave, if_pos hc, hq, hqueue, List.length_cons]
        cases w <;> simp only [Place.effort] <;> omega
    | _ => exact load_crash_lt hc _

theorem length_createBlock_le (s : Chain) (data : Option (List UInt8)) (length idx f : ℤ) :
    (createBlock s data length idx f).2.blockQueue.length ≤ s.blockQueue.length + 1 := by
  rw [createBlock]
  split
  · exact Nat.le_succ _
  · split
    · exact Nat.le_succ _
    · simp

theorem unmarkChain_blockQueue (s : Chain) : (unmarkChain s).blockQueue = s.blockQueue := by
  rw [unmarkChain, unmark_eq]
  rfl

/-- **While a chain is being closed, every step of a thread takes some work away**, or is the one
that ends it. -/
theorem load_runStep_lt (hc : m.crash = none) (hb : m.chain.currentlyBlocked = true)
    (h : m.runStep i H pick seed pastEnd = some m') :
    m'.chain.currentlyBlocked = false ∨ m'.load i < m.load i := by
  have hload : ∀ {l'}, m.place i = l' →
      m.load i = 5 * m.chain.blockQueue.length + l'.effort + 1 := fun hp ↦ by
    rw [load, hp, if_pos hc]
  have hleave : ∀ {s l l'}, m.place i = l' →
      5 * s.blockQueue.length + l.effort < 5 * m.chain.blockQueue.length + l'.effort →
      (m.leave i s l).load i < m.load i := fun hp hlt ↦ by
    rw [hload hp, load_leave, if_pos hc]
    omega
  have hgoto : ∀ {l l'}, m.place i = l' → l.effort < l'.effort → (m.goto i l).load i < m.load i :=
    fun hp hlt ↦ hleave hp (Nat.add_lt_add_left hlt _)
  have hlock : ∀ {a l l'}, m.place i = l' → l.effort < l'.effort → m.lock i a l = some m' →
      m'.load i < m.load i := fun hp hlt hm ↦ load_lock_lt hc (by rwa [hp]) hm
  have hunlock : ∀ {a l l'}, m.place i = l' → l.effort < l'.effort →
      (m.unlock i a l).load i < m.load i := fun hp hlt ↦ by
    rw [hload hp, load_unlock, if_pos hc]
    omega
  rw [runStep] at h
  cases hp : m.place i with
  | unborn | ended => simp [hp] at h
  | head =>
    simp only [hp, hb, if_true, Option.some.injEq] at h
    exact .inr (h ▸ hgoto hp (by decide))
  | test =>
    simp only [hp, Option.some.injEq] at h
    rw [← h]
    split
    · exact .inr (hgoto hp (by decide))
    · exact .inr (hgoto hp (by decide))
  | lockQueue w =>
    simp only [hp] at h
    exact .inr (hlock hp (by cases w <;> decide) h)
  | take w =>
    simp only [hp, Option.some.injEq] at h
    exact .inr (h ▸ load_take_lt hc hp)
  | lockMap w block =>
    simp only [hp] at h
    exact .inr (hlock hp (by cases w <;> simp [Place.effort]) h)
  | insert w block =>
    simp only [hp, Option.some.injEq] at h
    exact .inr (h ▸ hleave hp (Nat.add_lt_add_left (by cases w <;> simp [Place.effort]) _))
  | unlockMap w =>
    simp only [hp, Option.some.injEq] at h
    exact .inr (h ▸ hunlock hp (by cases w <;> decide))
  | hashed w =>
    cases w with
    | daemon =>
      simp only [hp, Option.some.injEq] at h
      exact .inr (h ▸ hleave hp (Nat.add_lt_add_left (by decide) _))
    | closer =>
      simp only [hp, Option.some.injEq] at h
      exact .inr (h ▸ hgoto hp (by decide))
  | unlockQueue w =>
    cases w with
    | daemon =>
      simp only [hp, Option.some.injEq] at h
      exact .inr (h ▸ hunlock hp (by decide))
    | closer =>
      simp only [hp, Option.some.injEq] at h
      exact .inr (h ▸ hunlock hp (by decide))
  | reset =>
    simp only [hp] at h
    split at h
    · exact .inr (Option.some.inj h ▸ load_crash_lt hc _)
    · exact .inl (Option.some.inj h ▸ rfl)
  | number data length =>
    simp only [hp, hb, Bool.or_true, if_true, Option.some.injEq] at h
    exact .inr (h ▸ hgoto hp (by simp [Place.effort]))
  | lockFather data length idx =>
    simp only [hp] at h
    exact .inr (hlock hp (by simp [Place.effort]) h)
  | father data length idx =>
    simp only [hp, Option.some.injEq] at h
    exact .inr (h ▸ hgoto hp (by simp [Place.effort]))
  | unlockFather data length idx f =>
    simp only [hp, Option.some.injEq] at h
    exact .inr (h ▸ hunlock hp (by simp [Place.effort]))
  | create data length idx f =>
    simp only [hp, Option.some.injEq] at h
    have hle := length_createBlock_le m.chain data length idx f
    refine .inr (h ▸ hleave hp ?_)
    simp only [Place.effort]
    omega
  | mark =>
    simp only [hp, hb, Bool.or_true, if_true, Option.some.injEq] at h
    exact .inr (h ▸ hgoto hp (by decide))
  | lockSweep =>
    simp only [hp] at h
    exact .inr (hlock hp (by decide) h)
  | sweep =>
    simp only [hp, Option.some.injEq] at h
    exact .inr (h ▸ hleave hp (Nat.add_lt_add_left (by decide) _))
  | unlockSweep =>
    simp only [hp, Option.some.injEq] at h
    exact .inr (h ▸ hunlock hp (by decide))
  | unmark =>
    simp only [hp, Option.some.injEq] at h
    refine .inr (h ▸ hleave hp ?_)
    rw [unmarkChain_blockQueue]
    exact Nat.add_lt_add_left (by decide) _
  | join =>
    simp only [hp, Option.some.injEq] at h
    rw [← h]
    split
    · exact .inr (hgoto hp (by decide))
    · exact .inr (hgoto hp (by simp [Place.effort]))
  | joining c =>
    simp only [hp] at h
    split at h
    · exact .inr (Option.some.inj h ▸ hgoto hp (by simp [Place.effort]))
    · cases h

/-- What a thread spends, all threads spend. -/
theorem work_add_load (hr : m.Runs i m') (hi : i < m.made) :
    m'.work + m.load i = m.work + m'.load i := by
  have hmem : i ∈ Finset.range m.made := Finset.mem_range.mpr hi
  have hsplit : ∀ f : ThreadId → ℕ, ∑ j ∈ Finset.range m.made, f j =
      f i + ∑ j ∈ (Finset.range m.made).erase i, f j :=
    fun f ↦ (Finset.add_sum_erase _ f hmem).symm
  have hrest : ∑ j ∈ (Finset.range m.made).erase i, (m'.place j).effort =
      ∑ j ∈ (Finset.range m.made).erase i, (m.place j).effort :=
    Finset.sum_congr rfl fun j hj ↦ by rw [hr.others j (Finset.ne_of_mem_erase hj)]
  simp only [work, load, hr.made.1, hsplit, hrest]
  omega

theorem work_create (m : Program) (l : Place) : (m.create l).work = m.work + l.effort := by
  have hold : ∑ j ∈ Finset.range m.made, ((m.create l).place j).effort =
      ∑ j ∈ Finset.range m.made, (m.place j).effort :=
    Finset.sum_congr rfl fun j hj ↦ by
      rw [create_place, if_neg (Finset.mem_range.mp hj).ne]
  rw [work, work, show (m.create l).made = m.made + 1 from rfl, Finset.sum_range_succ, hold,
    create_place, if_pos rfl]
  change 5 * m.chain.blockQueue.length + _ + (if m.crash = none then 1 else 0) = _
  omega

theorem work_withChain (hs : s.blockQueue.length = m.chain.blockQueue.length) :
    ({ m with chain := s } : Program).work = m.work := by
  rw [work, work, hs]

/-- While a chain is being closed, `init_blockchain` does nothing. -/
theorem act_init_of_blocked (hb : m.chain.currentlyBlocked = true) (created : Bool) :
    m.act H (.init created) = some m := by
  have hinit : initBlockchain m.chain created = (.ret fail, m.chain) := by
    simp [initBlockchain, hb]
  rw [act, hinit]
  rfl

/-- What an event takes away, or what a call brings. -/
theorem work_step (hm : m.Locking) (hb : m.chain.currentlyBlocked = true)
    (hb' : m'.chain.currentlyBlocked = true) (hst : m.step H e = some m') :
    m'.work + (if e.isRun then 1 else 0) ≤ m.work + if e.isRun then 0 else 4 := by
  rw [step] at hst
  split at hst
  · cases hst
  rename_i hsome
  have hc : m.crash = none := Option.not_isSome_iff_eq_none.mp hsome
  cases e with
  | init created =>
    rw [act_init_of_blocked hb] at hst
    exact Option.some.inj hst ▸ Nat.le_add_right _ _
  | close =>
    rcases close_cases hst with ⟨-, rfl⟩ | rfl
    · exact (work_create m (.lockQueue .closer)).le
    · exact Nat.le_add_right _ _
  | toLongest k =>
    have hlen : (toLongest m.chain k).2.blockQueue.length = m.chain.blockQueue.length := by
      rcases toLongest_cases m.chain k with hsame | ⟨p, -, hsame⟩
      · rw [hsame]
      · rw [hsame]
        rfl
    exact Option.some.inj hst ▸ (work_withChain hlen).le.trans (Nat.le_add_right _ _)
  | attachNow k =>
    have hlen : (attachNow m.chain k).2.blockQueue.length = m.chain.blockQueue.length := by
      obtain ⟨q, hq, hsame⟩ := attachNow_cases m.chain k
      rw [hsame]
      exact hq.length_eq
    exact Option.some.inj hst ▸ (work_withChain hlen).le.trans (Nat.le_add_right _ _)
  | call r =>
    obtain rfl := Option.some.inj hst
    have heffort : r.place.effort ≤ 4 := by cases r <;> simp [Request.place, Place.effort]
    rw [work_create]
    exact Nat.add_le_add_left heffort _
  | run i pick seed pastEnd =>
    have hrun : m.runStep i H pick seed pastEnd = some m' := hst
    have hborn : i < m.made := by
      by_contra hge
      have hp := hm.unborn i (not_lt.mp hge)
      simp [runStep, hp] at hrun
    have hsum := work_add_load (runStep_runs hrun) hborn
    have hlt := (load_runStep_lt hc hb hrun).resolve_left (by simp [hb'])
    simp only [ProgramEvent.isRun, if_true]
    omega

/-! ## There is always something to do -/

/-- While a chain is being closed, the last closing thread has not come to its end. -/
def CloserAlive (m : Program) : Prop :=
  m.chain.currentlyBlocked = true → (m.place m.closeThread).worker = some .closer

theorem take_worker {w : Worker} (hp : m.place i = .take w) :
    ((m.take i H w pick seed).place i).worker = some w := by
  have hstay : (m.place i).worker = some w := by
    rw [hp]
    rfl
  have hgo : ∀ {s l}, l.worker = some w → ((m.leave i s l).place i).worker = some w :=
    fun hl ↦ by rwa [leave_place_self]
  unfold take
  split
  · cases w with
    | daemon => exact hstay
    | closer => exact hgo (s := m.chain) rfl
  · split
    · exact hstay
    · split
      · exact hgo rfl
      · exact hgo rfl
      · exact hstay

/-- A closing thread ends when it has reset everything. -/
theorem runStep_closer (hw : (m.place i).worker = some .closer)
    (h : m.runStep i H pick seed pastEnd = some m') :
    m'.chain.currentlyBlocked = false ∨ (m'.place i).worker = some .closer := by
  have hgo : ∀ {s l}, l.worker = some .closer →
      ((m.leave i s l).place i).worker = some .closer := fun hl ↦ by rwa [leave_place_self]
  have hlock : ∀ {a l}, l.worker = some .closer → m.lock i a l = some m' →
      (m'.place i).worker = some .closer := by
    intro a l hl hm
    rw [lock] at hm
    split at hm
    · exact Option.some.inj hm ▸ hw
    · split at hm
      · cases hm
      · exact Option.some.inj hm ▸ hgo (s := m.chain) hl
  have hcloser : ∀ {l}, m.place i = l → l.worker = some .closer := fun hp ↦ hp ▸ hw
  rw [runStep] at h
  cases hp : m.place i with
  | lockQueue w =>
    obtain rfl : w = .closer := Option.some.inj (hcloser hp)
    simp only [hp] at h
    exact .inr (hlock rfl h)
  | take w =>
    obtain rfl : w = .closer := Option.some.inj (hcloser hp)
    simp only [hp, Option.some.injEq] at h
    exact .inr (h ▸ take_worker hp)
  | lockMap w block =>
    obtain rfl : w = .closer := Option.some.inj (hcloser hp)
    simp only [hp] at h
    exact .inr (hlock rfl h)
  | insert w block =>
    obtain rfl : w = .closer := Option.some.inj (hcloser hp)
    simp only [hp, Option.some.injEq] at h
    exact .inr (h ▸ hgo rfl)
  | unlockMap w =>
    obtain rfl : w = .closer := Option.some.inj (hcloser hp)
    simp only [hp, Option.some.injEq] at h
    exact .inr (h ▸ hgo (s := m.chain) rfl)
  | hashed w =>
    obtain rfl : w = .closer := Option.some.inj (hcloser hp)
    simp only [hp, Option.some.injEq] at h
    exact .inr (h ▸ hgo (s := m.chain) rfl)
  | unlockQueue w =>
    obtain rfl : w = .closer := Option.some.inj (hcloser hp)
    simp only [hp, Option.some.injEq] at h
    exact .inr (h ▸ hgo (s := m.chain) rfl)
  | reset =>
    simp only [hp] at h
    split at h
    · exact .inr (Option.some.inj h ▸ hw)
    · exact .inl (Option.some.inj h ▸ rfl)
  | _ => cases hcloser hp

theorem CloserAlive.create (hm : m.Locking) (h : m.CloserAlive) (l : Place) :
    (m.create l).CloserAlive := by
  intro hb
  have hw := h hb
  have hne : m.closeThread ≠ m.made := by
    intro heq
    rw [heq, hm.unborn m.made le_rfl] at hw
    cases hw
  change ((m.create l).place m.closeThread).worker = _
  rwa [create_place, if_neg hne]

/-- Only the flag of the chain matters. -/
theorem CloserAlive.withChain (h : m.CloserAlive) (hs : SameFlags m.chain s) :
    ({ m with chain := s } : Program).CloserAlive :=
  fun hb ↦ h (hs.blocked ▸ hb)

theorem CloserAlive.step (hm : m.Locking) (h : m.CloserAlive) (hst : m.step H e = some m') :
    m'.CloserAlive := by
  rw [Program.step] at hst
  split at hst
  · cases hst
  cases e with
  | init created =>
    rcases init_cases hst with ⟨-, rfl⟩ | ⟨b, rfl⟩
    · exact fun hb ↦ h.create hm .head hb
    · exact h.withChain ⟨rfl, rfl⟩
  | close =>
    rcases close_cases hst with ⟨-, rfl⟩ | rfl
    · intro _
      change ((m.create (.lockQueue .closer)).place m.made).worker = _
      rw [create_place, if_pos rfl]
      rfl
    · exact h
  | toLongest k => exact Option.some.inj hst ▸ h.withChain (sameFlags_toLongest _ k)
  | attachNow k => exact Option.some.inj hst ▸ h.withChain (sameFlags_attachNow _ k)
  | call r => exact Option.some.inj hst ▸ h.create hm r.place
  | run i pick seed pastEnd =>
    have hrun : m.runStep i H pick seed pastEnd = some m' := hst
    have hr := runStep_runs hrun
    intro hb'
    have hb : m.chain.currentlyBlocked = true := by
      rcases hr.flags with ⟨hflags, -⟩ | ⟨-, -, hchain, -⟩
      · rwa [← hflags.blocked]
      · rw [hchain] at hb'
        cases hb'
    rw [hr.made.2]
    by_cases hi : m.closeThread = i
    · have hw := h hb
      rw [hi] at hw ⊢
      exact (runStep_closer hw hrun).resolve_left (by simp [hb'])
    · rw [hr.others _ hi]
      exact h hb

theorem exec_closerAlive {es : List ProgramEvent}
    (h : Run.exec (Program.step H) fresh es = some m) : m.CloserAlive := by
  have hboth : m.Locking ∧ m.CloserAlive :=
    Run.exec_induction (I := fun m ↦ m.Locking ∧ m.CloserAlive)
      (fun _ _ _ hm hst ↦ ⟨hm.1.step hst, hm.2.step hm.1 hst⟩)
      ⟨locking_fresh, fun hb ↦ by cases hb⟩ h
  exact hboth.2

/-- **The run lemma**: as long as the closing lasts, the steps of the threads use up the work. -/
theorem exec_work_le {rs : List ProgramEvent} (hm : m.Locking)
    (hrs : Run.Always (Program.step H) (fun s ↦ s.chain.currentlyBlocked = true) m rs)
    (h : Run.exec (Program.step H) m rs = some n) :
    n.work + rs.countP ProgramEvent.isRun ≤ m.work + 4 * rs.countP (!·.isRun) := by
  induction rs generalizing m with
  | nil => exact Option.some.inj h ▸ Nat.le_refl _
  | cons e rs ih =>
    obtain ⟨m₁, hst, h⟩ := Run.exec_cons_eq_some.mp h
    have hrest := hrs.2 m₁ hst
    have hstep := work_step hm hrs.1 hrest.start hst
    have htail := ih (hm.step hst) hrest h
    cases he : e.isRun with
    | true =>
      rw [he, if_pos rfl, if_pos rfl] at hstep
      rw [List.countP_cons_of_pos he, List.countP_cons_of_neg (by simp [he])]
      omega
    | false =>
      rw [he, if_neg Bool.false_ne_true, if_neg Bool.false_ne_true] at hstep
      rw [List.countP_cons_of_neg (by simp [he]), List.countP_cons_of_pos (by simp [he])]
      omega

/-- **A chain that is being closed gets closed.**  As long as the closing lasts, some thread can go
on, and the threads take at most as many steps as there is work, and four more for each call that is
made meanwhile. -/
theorem closing_ends {es : List ProgramEvent} (h : Run.exec (Program.step H) fresh es = some m)
    (hb : m.chain.currentlyBlocked = true) :
    (m.crash = none → ∃ i, ∀ pick seed pastEnd,
      (m.step H (.run i pick seed pastEnd)).isSome) ∧
    ∀ rs n, Run.Always (Program.step H) (fun s ↦ s.chain.currentlyBlocked = true) m rs →
      Run.exec (Program.step H) m rs = some n →
        rs.countP ProgramEvent.isRun ≤ m.work + 4 * rs.countP (!·.isRun) := by
  have hm := exec_locking h
  have hclosing : m.CloserAlive := exec_closerAlive h
  refine ⟨fun hc ↦ ?_, fun rs n hrs hr ↦ ?_⟩
  · have hw := hclosing hb
    have hplace : ∀ l, l.worker ≠ some .closer → m.place m.closeThread ≠ l := by
      rintro l hl rfl
      exact hl hw
    obtain ⟨k, -, hk⟩ := hm.exists_going H (hplace .unborn (by decide))
      (hplace .ended (by decide)) fun c ↦ hplace (.joining c) (by simp [Place.worker])
    refine ⟨k, fun pick seed pastEnd ↦ ?_⟩
    rw [step_run_eq hc]
    exact hk pick seed pastEnd
  · have hle := exec_work_le hm hrs hr
    omega

theorem closing_ends_sample : ∃ m i,
    Run.exec (Program.step plainHash) fresh contendedEvents = some m ∧
      m.chain.currentlyBlocked = true ∧ (m.step plainHash (.run i 0 0 0)).isSome := by
  obtain ⟨m, hm, h⟩ : ∃ m, Run.exec (Program.step plainHash) fresh contendedEvents = some m ∧
      (m.chain.currentlyBlocked, m.crash) = (true, none) := by
    rw [← Option.map_eq_some_iff]
    decide
  obtain ⟨hb, hc⟩ := Prod.mk.inj h
  obtain ⟨i, hi⟩ := (closing_ends hm hb).1 hc
  exact ⟨m, i, hm, hb, hi 0 0 0⟩

end Program

end Blockchain
