import OsExercises.Uthreads.Context

/-!
# Preemption between the checks and the body of a call

The library's functions make their checks before they block the timer signal.  Here a call is two
events, and the timer may expire between them: the other threads then run, and make calls of their
own, before the body is executed on the strength of checks made a while ago.

* `SplitMachine` keeps, for each thread, the call whose checks it has passed and whose body it has
  not started.
* `Clash` says which body takes back what which other call has checked, and
  `Effect.established_iff` that this is the only way an established fact is lost.
* `always_sound_iff` puts this together: the calls are as good as atomic in exactly the runs in
  which no body clashes with a pending call of another thread that lives on.
-/

set_option autoImplicit false

namespace Uthreads

variable {s t : Lib} {p q r : ThreadPtr} {tid : ℤ} {a : Act} {x : Exit} {c c' : Call}

/-! ## Which calls clash -/

/-- The thread a call is about. -/
def Call.about : Call → Option ℤ
  | .spawn _ => none
  | .terminate tid => some tid
  | .suspend tid => some tid
  | .resume tid => some tid

/-- The body of the first call takes back what the checks of the second one have established. -/
def Clash (s : Lib) : Call → Call → Prop
  | .spawn _, .spawn _ => s.threads.size + 1 = maxThreads
  | .terminate tid, c => c.about = some tid
  | .resume tid, .resume tid' => tid' = tid
  | _, _ => False

/-- A fact stays established when no thread goes and none leaves `blocked`. -/
theorem Lib.Established.mono (h : s.Established c) (ht : t.threads = s.threads)
    (hb : ∀ p ∈ s.blocked, p ∈ t.blocked) : t.Established c := by
  cases c with
  | spawn pr => simpa only [Lib.Established, ht] using h
  | terminate tid => simpa only [Lib.Established, ht] using h
  | suspend tid => simpa only [Lib.Established, ht] using h
  | resume tid =>
    obtain ⟨p, hp, hmem⟩ := h
    exact ⟨p, ht ▸ hp, hb p hmem⟩

theorem mem_erase_iff (m : Std.TreeMap ℤ ThreadPtr) (k : ℤ) :
    k ∈ m.erase tid ↔ k ≠ tid ∧ k ∈ m := by
  rw [Std.TreeMap.mem_erase, Ne, Std.compare_eq_iff_eq, ne_comm]

/-- When a thread goes, what is lost is what was established about it. -/
theorem established_erase_iff (h : s.Established c') (ht : t.threads = s.threads.erase tid)
    (hb : ∀ k p, k ≠ tid → s.threads[k]? = some p → p ∈ s.blocked → p ∈ t.blocked) :
    t.Established c' ↔ ¬Clash s (.terminate tid) c' := by
  have hmem : ∀ k, k ≠ mainThread → k ∈ s.threads →
      ((k ≠ mainThread ∧ k ∈ t.threads) ↔ ¬some k = some tid) := fun k hne hk ↦ by
    rw [ht, mem_erase_iff, Option.some.injEq]
    exact ⟨fun h1 ↦ h1.2.1, fun h1 ↦ ⟨hne, h1, hk⟩⟩
  cases c' with
  | spawn pr =>
    have hle := size_erase_le s.threads tid
    have hlt : s.threads.size < maxThreads := h
    have : (s.threads.erase tid).size < maxThreads := by omega
    simpa [Lib.Established, Clash, Call.about, ht] using this
  | terminate k => exact hmem k h.1 h.2
  | suspend k => exact hmem k h.1 h.2
  | resume k =>
    obtain ⟨p, hp, hmem⟩ := h
    by_cases hk : k = tid
    · simp [Lib.Established, Clash, Call.about, ht, hk]
    · have hget : (s.threads.erase tid)[k]? = some p := by
        rw [Std.TreeMap.getElem?_erase, if_neg (by simpa using Ne.symm hk), hp]
      simp only [Clash, Call.about, Option.some.injEq, hk, not_false_iff, iff_true]
      exact ⟨p, ht ▸ hget, hb k p hk hp hmem⟩

/-- When a thread leaves `blocked`, what is lost is that it can be resumed. -/
theorem established_resume_iff (h : Wf [] s) (hc : s.Established c')
    (hp : s.threads[tid]? = some p) (hmem : p ∈ s.blocked) (ht : t.threads = s.threads)
    (hb : t.blocked = s.blocked.erase p) : t.Established c' ↔ ¬Clash s (.resume tid) c' := by
  cases c' with
  | spawn pr => simpa [Lib.Established, Clash, ht] using hc
  | terminate k => simpa [Lib.Established, Clash, ht] using hc
  | suspend k => simpa [Lib.Established, Clash, ht] using hc
  | resume k =>
    obtain ⟨p', hp', hmem'⟩ := hc
    simp only [Lib.Established, Clash, ht, hb]
    constructor
    · rintro ⟨p₁, hp₁, hmem₁⟩ rfl
      cases hp.symm.trans hp₁
      exact ((h.takeBlocked hmem).not_placed List.mem_cons_self).2.2 hmem₁
    · intro hk
      refine ⟨p', hp', (List.mem_erase_of_ne ?_).mpr hmem'⟩
      rintro rfl
      exact hk ((h.key _ _ hp').symm.trans (h.key _ _ hp))

/-- When a thread is made, what may be lost is that another one can be. -/
theorem established_spawn_iff {pr : Priority} (h : Wf [] s) (hc : s.Established c')
    (ht : t.threads = s.threads.insertIfNew (getNextId s) s.brk) (hb : t.blocked = s.blocked) :
    t.Established c' ↔ ¬Clash s (.spawn pr) c' := by
  have hnew : getNextId s ∉ s.threads := h.isLeast_getNextId.1.2
  cases c' with
  | spawn pr' =>
    have hsize : t.threads.size = s.threads.size + 1 := by
      rw [ht, Std.TreeMap.size_insertIfNew, if_neg hnew]
    have hlt : s.threads.size < maxThreads := hc
    simp only [Lib.Established, Clash, hsize]
    omega
  | terminate k => simpa [Lib.Established, Clash, ht] using ⟨hc.1, .inr hc.2⟩
  | suspend k => simpa [Lib.Established, Clash, ht] using ⟨hc.1, .inr hc.2⟩
  | resume k =>
    obtain ⟨p, hp, hmem⟩ := hc
    simp only [Lib.Established, Clash, not_false_iff, iff_true, ht, hb]
    refine ⟨p, ?_, hmem⟩
    have hk : k ∈ s.threads := Lib.mem_threads_iff.mpr ⟨p, hp⟩
    rw [Std.TreeMap.getElem?_insertIfNew, if_neg, hp]
    rintro ⟨heq, -⟩
    exact hnew (Std.compare_eq_iff_eq.mp heq ▸ hk)

/-- **What an established fact survives**: everything but the body of a clashing call. -/
theorem Effect.established_iff (h : Wf [] s) (he : Effect s a x t) (hc : s.Established c') :
    t.Established c' ↔ ∀ c, a = .body c → ¬Clash s c c' := by
  have hmono : t.threads = s.threads → (∀ p ∈ s.blocked, p ∈ t.blocked) →
      (∀ c, a = .body c → ¬Clash s c c') → (t.Established c' ↔ ∀ c, a = .body c → ¬Clash s c c') :=
    fun ht hb hno ↦ ⟨fun _ ↦ hno, fun _ ↦ hc.mono ht hb⟩
  have hbody : ∀ c, (∀ c₁, Act.body c = .body c₁ → ¬Clash s c₁ c') ↔ ¬Clash s c c' :=
    fun c ↦ ⟨fun h ↦ h c rfl, by rintro h _ ⟨⟩; exact h⟩
  cases he with
  | tickFirst => exact hmono rfl (fun p hp ↦ hp) (by simp)
  | tickIdle => exact hmono rfl (fun p hp ↦ hp) (by simp)
  | landUser => exact hmono rfl (fun p hp ↦ hp) (by simp)
  | landSuspend => exact hmono rfl (fun p hp ↦ List.mem_append_left _ hp) (by simp)
  | suspendRunning =>
    exact hmono rfl (fun p hp ↦ List.mem_append_left _ hp) (by rintro _ ⟨⟩; exact id)
  | suspendReady =>
    exact hmono rfl (fun p hp ↦ List.mem_append_left _ hp) (by rintro _ ⟨⟩; exact id)
  | suspendBlocked => exact hmono rfl (fun p hp ↦ hp) (by rintro _ ⟨⟩; exact id)
  | spawn hr pr =>
    rw [hbody]
    exact established_spawn_iff h hc rfl rfl
  | terminateRunning hr htid hne hf =>
    rw [hbody]
    exact established_erase_iff hc rfl fun k p _ _ hp ↦ hp
  | terminateReady hp hne hmem =>
    rw [hbody]
    exact established_erase_iff hc rfl fun k p _ _ hp ↦ hp
  | terminateBlocked hp hne hmem =>
    rw [hbody]
    refine established_erase_iff hc rfl fun k p' hk hp' hmem' ↦ ?_
    refine (List.mem_erase_of_ne ?_).mpr hmem'
    rintro rfl
    exact hk ((h.key _ _ hp').symm.trans (h.key _ _ hp))
  | resume hp hmem =>
    rw [hbody]
    exact established_resume_iff h hc hp hmem rfl rfl

/-! ## Calls in two steps -/

/-- The machine, and for each thread the call whose checks it has passed and whose body it has not
started. -/
structure SplitMachine extends Machine where
  /-- The pending calls. -/
  pending : ThreadPtr → Option Call

/-- An event: the timer expires, control enters a saved context, the running thread makes the checks
of a call, or it executes the body of the call it has made the checks of. -/
inductive SplitEvent
  | tick
  | land
  | check (c : Call)
  | body
  deriving DecidableEq, Repr

namespace SplitMachine

variable {m n : SplitMachine} {e : SplitEvent}

/-- The thread whose code runs, with the call it is in. -/
def current (m : SplitMachine) : Option (ThreadPtr × Option Call) :=
  match m.ctl, m.lib.running with
  | .user, some r => some (r, m.pending r)
  | _, _ => none

/-- The library does something, and then these calls are pending. -/
def perform (m : SplitMachine) (a : Act) (pending : ThreadPtr → Option Call) :
    Option SplitMachine :=
  (Machine.next (act m.lib a)).map fun n ↦ ⟨n, pending⟩

/-- What happens at an event.  A thread makes no checks while it is in a call, and only a thread
that has passed its checks executes a body. -/
def step (m : SplitMachine) : SplitEvent → Option SplitMachine
  | .tick => if m.ctl = .user ∧ m.lib.mask = false then m.perform .tick m.pending else none
  | .land => if m.ctl = .loading then m.perform .land m.pending else none
  | .check c =>
    match m.current with
    | some (r, none) =>
      match check m.lib c with
      | none => some { m with pending := Function.update m.pending r (some c) }
      | some .exited => none
      | some _ => some m
    | _ => none
  | .body =>
    match m.current with
    | some (r, some c) => m.perform (.body c) (Function.update m.pending r none)
    | _ => none

/-- The machine after `uthread_init`. -/
def start (s : Lib) : SplitMachine := ⟨.start s, fun _ ↦ none⟩

/-! ## What holds when calls are as good as atomic -/

/-- What the running thread may do next. -/
def MayDo (m : SplitMachine) : Act → Prop
  | .tick => m.ctl = .user
  | .land => m.ctl = .loading
  | .body c => ∃ r, m.current = some (r, some c)

/-- What the checks are for. -/
structure Sound (m : SplitMachine) : Prop where
  /-- What a thread's checks have established still holds, so also when its body starts. -/
  pending : ∀ r c, m.lib.Live r → m.pending r = some c → m.lib.Established c
  /-- There are not too many threads. -/
  bounded : m.lib.threads.size ≤ maxThreads
  /-- No missing thread is looked up. -/
  no_fault : ∀ a, m.MayDo a → ∀ f, act m.lib a ≠ .error f

/-- A body is executed only when it clashes with no pending call of another thread that lives on. -/
def Undisturbing (m : SplitMachine) : SplitEvent → Prop
  | .body => ∀ r c q c', m.current = some (r, some c) → q ≠ r → m.lib.Live q →
      (∀ tid, c = .terminate tid → (m.lib.heap q).tid ≠ tid) → m.pending q = some c' →
      ¬Clash m.lib c c'
  | _ => True

/-- The invariant of the runs in which calls are as good as atomic. -/
structure Inv (m : SplitMachine) : Prop where
  /-- The data fit together, and the number of threads is bounded. -/
  settled : Settled m.lib ∧ m.lib.Bounded
  /-- An address that was never used has no pending call. -/
  fresh : ∀ q, m.lib.brk ≤ q → m.pending q = none
  /-- Pending checks are not stale. -/
  pending : ∀ r c, m.lib.Live r → m.pending r = some c → m.lib.Established c

theorem current_eq_some {r : ThreadPtr} {o : Option Call} :
    m.current = some (r, o) ↔ m.ctl = .user ∧ m.lib.running = some r ∧ m.pending r = o := by
  rw [current]
  split
  · simp_all
  · simp_all

/-- What the running thread may do, the library does. -/
theorem Inv.act_spec (hm : m.Inv) (ha : m.MayDo a) :
    (∀ c, a = .body c → m.lib.Established c) ∧
      ∃ x t, act m.lib a = .ok (x, t) ∧ Effect m.lib a x t := by
  obtain ⟨r, hr⟩ := Option.isSome_iff_exists.mp hm.settled.1.running
  have hest : ∀ c, a = .body c → m.lib.Established c := by
    rintro c rfl
    obtain ⟨r', hcur⟩ := ha
    obtain ⟨-, hr', hp⟩ := current_eq_some.mp hcur
    exact hm.pending r' c (hm.settled.1.wf.live_of_running hr') hp
  exact ⟨hest, Uthreads.act_spec hm.settled.1.wf hr a hest⟩

theorem Inv.sound (hm : m.Inv) : m.Sound := by
  refine ⟨hm.pending, hm.settled.2, fun a ha f hf ↦ ?_⟩
  obtain ⟨-, x, t, hact, -⟩ := hm.act_spec ha
  simp [hact] at hf

/-- The pending checks an act leaves intact are those that do not clash with it. -/
theorem Inv.pending_iff (hm : m.Inv) (he : Effect m.lib a x t) {pend : ThreadPtr → Option Call}
    (hpend : ∀ q c, pend q = some c → m.pending q = some c) :
    (∀ q c, t.Live q → pend q = some c → t.Established c) ↔
      ∀ q c', pend q = some c' → m.lib.Live q →
        (∀ tid, a = .body (.terminate tid) → (m.lib.heap q).tid ≠ tid) →
        ∀ c, a = .body c → ¬Clash m.lib c c' := by
  have hwf := hm.settled.1.wf
  have hbrk : ∀ q c, pend q = some c → q < m.lib.brk := fun q c hq ↦ by
    by_contra hlt
    have hnone := hm.fresh q (not_lt.mp hlt)
    rw [hpend q c hq] at hnone
    cases hnone
  constructor
  · intro h q c' hq hlive hspare
    have hest := hm.pending q c' hlive (hpend q c' hq)
    exact (he.established_iff hwf hest).mp
      (h q c' ((he.live_iff hwf (hbrk q c' hq)).mpr ⟨hlive, hspare⟩) hq)
  · intro h q c' hlive hq
    obtain ⟨hlive', hspare⟩ := (he.live_iff hwf (hbrk q c' hq)).mp hlive
    exact (he.established_iff hwf (hm.pending q c' hlive' (hpend q c' hq))).mpr
      (h q c' hq hlive' hspare)

/-- What the library did, when it did something. -/
theorem Inv.perform_eq_some (hm : m.Inv) (ha : m.MayDo a) {pend : ThreadPtr → Option Call}
    (h : m.perform a pend = some n) :
    (∃ x, Effect m.lib a x n.lib) ∧ Settled n.lib ∧ n.lib.Bounded ∧ n.pending = pend := by
  obtain ⟨hest, x, t, hact, heff⟩ := hm.act_spec ha
  have hn : n.lib = t ∧ n.pending = pend := by
    rw [perform, hact] at h
    have hne := heff.ne_exited
    cases x with
    | exited => exact absurd rfl hne
    | _ =>
      cases h
      exact ⟨rfl, rfl⟩
  rw [hn.1, hn.2]
  exact ⟨⟨x, heff⟩, heff.settled hm.settled.1, heff.bounded hm.settled.2 hest, rfl⟩

/-- **The step lemma.**  An act keeps the invariant if and only if it leaves the pending checks of
the threads that live on intact. -/
theorem Inv.perform_iff (hm : m.Inv) (ha : m.MayDo a) {pend : ThreadPtr → Option Call}
    (hpend : ∀ q c, pend q = some c → m.pending q = some c) (h : m.perform a pend = some n) :
    ((∀ r c, n.lib.Live r → n.pending r = some c → n.lib.Established c) ↔ n.Inv) ∧
      (n.Inv ↔ ∀ q c', pend q = some c' → m.lib.Live q →
        (∀ tid, a = .body (.terminate tid) → (m.lib.heap q).tid ≠ tid) →
        ∀ c, a = .body c → ¬Clash m.lib c c') := by
  obtain ⟨⟨x, heff⟩, hset, hb, hp⟩ := hm.perform_eq_some ha h
  have hiff : (∀ r c, n.lib.Live r → n.pending r = some c → n.lib.Established c) ↔ n.Inv := by
    refine ⟨fun hk ↦ ⟨⟨hset, hb⟩, fun q hq ↦ ?_, hk⟩, fun hn ↦ hn.pending⟩
    by_contra hne
    obtain ⟨c, hc⟩ := Option.ne_none_iff_exists'.mp hne
    rw [hp] at hc
    have hnone := hm.fresh q (heff.brk_le.trans hq)
    rw [hpend q c hc] at hnone
    cases hnone
  refine ⟨hiff, ?_⟩
  rw [← hiff, hp, hm.pending_iff heff hpend]

/-- **What one step can do**: an act that is no body, checks that fail or pass, or a body. -/
theorem step_cases (h : m.step e = some n) :
    (∃ a, (∀ c, a ≠ .body c) ∧ e ≠ .body ∧ m.MayDo a ∧ m.perform a m.pending = some n) ∨
      (e ≠ .body ∧ n = m) ∨
      (∃ r c, e ≠ .body ∧ m.current = some (r, none) ∧ Uthreads.check m.lib c = none ∧
        n = { m with pending := Function.update m.pending r (some c) }) ∨
      (∃ r c, e = .body ∧ m.current = some (r, some c) ∧
        m.perform (.body c) (Function.update m.pending r none) = some n) := by
  cases e with
  | tick =>
    rw [step] at h
    split at h
    case isFalse => cases h
    case isTrue hen => exact .inl ⟨.tick, by simp, by simp, hen.1, h⟩
  | land =>
    rw [step] at h
    split at h
    case isFalse => cases h
    case isTrue hen => exact .inl ⟨.land, by simp, by simp, hen, h⟩
  | check c =>
    simp only [step] at h
    split at h
    · rename_i r hcur
      split at h
      · rename_i hc
        exact .inr (.inr (.inl ⟨r, c, by simp, hcur, hc, (Option.some.inj h).symm⟩))
      · cases h
      · exact .inr (.inl ⟨by simp, (Option.some.inj h).symm⟩)
    · cases h
  | body =>
    simp only [step] at h
    split at h
    · rename_i r c hcur
      exact .inr (.inr (.inr ⟨r, c, rfl, hcur, h⟩))
    · cases h

theorem update_none_eq_some {f : ThreadPtr → Option Call}
    (h : Function.update f r none q = some c) : q ≠ r ∧ f q = some c := by
  by_cases hq : q = r
  · subst hq
    simp at h
  · exact ⟨hq, by rwa [Function.update_of_ne hq] at h⟩

/-- **An undisturbing step keeps the invariant.** -/
theorem Inv.step (hm : m.Inv) (hok : m.Undisturbing e) (hst : m.step e = some n) : n.Inv := by
  rcases step_cases hst with ⟨a, hnb, -, ha, h⟩ | ⟨-, rfl⟩ | ⟨r, c, -, hcur, hc, rfl⟩ |
    ⟨r, c, rfl, hcur, h⟩
  · exact (hm.perform_iff ha (fun _ _ hq ↦ hq) h).2.mpr fun _ _ _ _ _ c hc ↦ absurd hc (hnb c)
  · exact hm
  · obtain ⟨-, hr, -⟩ := current_eq_some.mp hcur
    have hwf := hm.settled.1.wf
    have hbrk : r < m.lib.brk := hwf.lt_brk _ _ (hwf.live_of_running hr)
    refine ⟨hm.settled, fun q hq ↦ ?_, fun q c' hlive hq ↦ ?_⟩
    · have hne : q ≠ r := (hbrk.trans_le hq).ne'
      exact (Function.update_of_ne hne _ _).trans (hm.fresh q hq)
    · by_cases hqr : q = r
      · subst hqr
        have hcc : c = c' := by simpa using hq
        exact hcc ▸ (check_eq_none_iff hm.settled.2 c).mp hc
      · exact hm.pending q c' hlive (by simpa [hqr] using hq)
  · have ha : m.MayDo (.body c) := ⟨r, hcur⟩
    refine (hm.perform_iff ha (fun q c' hq ↦ (update_none_eq_some hq).2) h).2.mpr ?_
    rintro q c' hq hlive hspare _ ⟨⟩
    obtain ⟨hne, hq'⟩ := update_none_eq_some hq
    exact hok r c q c' hcur hne hlive (fun tid htid ↦ hspare tid (by rw [htid])) hq'

/-- **A disturbing step leaves a stale check behind.** -/
theorem Inv.undisturbing (hm : m.Inv) (hst : m.step e = some n) (hn : n.Sound) :
    m.Undisturbing e := by
  rcases step_cases hst with ⟨a, -, he, -, -⟩ | ⟨he, -⟩ | ⟨r, c, he, -, -, -⟩ |
    ⟨r, c, rfl, hcur, h⟩
  · cases e <;> first | exact absurd rfl he | trivial
  · cases e <;> first | exact absurd rfl he | trivial
  · cases e <;> first | exact absurd rfl he | trivial
  · have hpend := fun q c' (hq : Function.update m.pending r none q = some c') ↦
      (update_none_eq_some hq).2
    have ha : m.MayDo (.body c) := ⟨r, hcur⟩
    obtain ⟨hiff, hclash⟩ := hm.perform_iff ha hpend h
    have hno := hclash.mp (hiff.mp hn.pending)
    intro r' c₁ q c' hcur' hne hlive hspare hq
    rw [hcur] at hcur'
    cases hcur'
    refine hno q c' (by rwa [Function.update_of_ne hne]) hlive (fun tid htid ↦ ?_) c rfl
    exact hspare tid (by simpa using htid)

/-- **Calls are as good as atomic in exactly the runs in which no body clashes with a pending call**
of another thread that lives on. -/
theorem always_sound_iff {q : ℤ} {s₀ : Lib} {es : List SplitEvent}
    (h0 : uthreadInit Lib.fresh q = (success, s₀)) :
    Run.Always step Sound (start s₀) es ↔ Run.Meets step Undisturbing (start s₀) es :=
  Run.always_iff_meets (I := Inv) (fun _ _ _ hm hok hst ↦ hm.step hok hst) (fun _ hm ↦ hm.sound)
    (fun _ _ _ hm hst hn ↦ hm.undisturbing hst hn)
    ⟨uthreadInit_settled h0, fun _ _ ↦ rfl, fun _ _ _ hp ↦ by cases hp⟩

/-- Between the main thread's checks of `uthread_suspend(1)` and the body, thread 1 terminates
itself: the body looks up a missing thread. -/
def staleEvents : List SplitEvent :=
  [.check (.spawn .red), .body, .check (.suspend 1), .tick, .land, .check (.terminate 1), .body,
    .land]

theorem exec_staleEvents :
    ∃ m, Run.exec step (start (uthreadInit Lib.fresh 1).2) staleEvents = some m ∧
      (m.current, m.lib.threads[(m.lib.heap 0).tid]?, m.lib.threads[(1 : ℤ)]?,
        match act m.lib (.body (.suspend 1)) with
        | .error f => some f
        | .ok _ => none) = (some (0, some (.suspend 1)), some 0, none, some .nullThread) := by
  rw [← Option.map_eq_some_iff]
  decide

theorem not_established_of_getElem? (h : s.threads[tid]? = none) :
    ¬s.Established (.suspend tid) := fun hc ↦ by
  obtain ⟨p, hp⟩ := Lib.mem_threads_iff.mp hc.2
  cases h.symm.trans hp

/-- Checks can be stale when the body starts. -/
theorem exists_stale :
    ∃ s₀ m, uthreadInit Lib.fresh 1 = (success, s₀) ∧
      Run.exec step (start s₀) staleEvents = some m ∧ m.current = some (0, some (.suspend 1)) ∧
      ¬m.lib.Established (.suspend 1) ∧ act m.lib (.body (.suspend 1)) = .error .nullThread := by
  obtain ⟨m, hm, h⟩ := exec_staleEvents
  simp only [Prod.mk.injEq] at h
  obtain ⟨hcur, -, hget, hfault⟩ := h
  refine ⟨_, m, rfl, hm, hcur, not_established_of_getElem? hget, ?_⟩
  split at hfault
  · rename_i f hf
    rw [hf, Option.some.inj hfault]
  · cases hfault

theorem always_sound_iff_sample :
    ¬Run.Meets step Undisturbing (start (uthreadInit Lib.fresh 1).2) staleEvents := by
  intro hmeets
  obtain ⟨m, hm, h⟩ := exec_staleEvents
  simp only [Prod.mk.injEq] at h
  obtain ⟨hcur, hlive, hget, -⟩ := h
  have hsound := ((always_sound_iff (q := 1) rfl).mpr hmeets).of_exec hm
  exact not_established_of_getElem? hget
    (hsound.pending 0 (.suspend 1) hlive (current_eq_some.mp hcur).2.2)

end SplitMachine

end Uthreads
