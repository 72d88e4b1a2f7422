import OsExercises.Uthreads.Ids
import OsExercises.Uthreads.Preemption

/-!
# Preemption is never switched off for good

The library blocks the timer signal while it works, and which mask is in force after a switch is
decided by the context that is switched to.  Here a run has everything a process can do: ticks, also
between the checks and the body of a call, returns into saved contexts, the four calls that change
the threads, and the three that only look.

* `body_effect` says what a body does when its checks may have gone stale: what it always does, or
  it ends the process by a lookup that fails.
* `exec_unmasked` is the result: whenever a thread's own code runs, the signal is not blocked.
-/

set_option autoImplicit false

namespace Uthreads

variable {s t : Lib} {r : ThreadPtr} {c : Call} {x : Exit}

/-! ## The calls that only look -/

/-- `uthread_get_tid`. -/
def uthreadGetTid (s : Lib) : Except Fault ℤ := do
  let r ← s.derefRunning
  return (s.heap r).tid

/-- A call of one of the functions that change no thread. -/
inductive Query
  | getTid
  | getTotalQuantums
  | getQuantums (tid : ℤ)
  deriving DecidableEq, Repr

/-- What it returns and leaves behind.  Only `uthread_get_quantums` blocks the signal. -/
def query (s : Lib) : Query → Except Fault (ℤ × Lib)
  | .getTid => do
    let tid ← uthreadGetTid s
    return (tid, s)
  | .getTotalQuantums => return (uthreadGetTotalQuantums s, s)
  | .getQuantums tid => return (uthreadGetQuantums s.sigBlock tid, s.sigBlock.sigUnblock)

theorem query_spec (hr : s.running = some r) (hmask : s.mask = false) (q : Query) :
    ∃ v, query s q = .ok (v, s) := by
  match q with
  | .getTid =>
    rw [query, uthreadGetTid, Lib.derefRunning_of_some hr]
    exact ⟨_, rfl⟩
  | .getTotalQuantums => exact ⟨_, rfl⟩
  | .getQuantums tid =>
    have hs : s.sigBlock.sigUnblock = s := by
      rw [Lib.sigBlock, Lib.sigUnblock, ← hmask]
    rw [query, hs]
    exact ⟨_, rfl⟩

/-! ## A body whose checks may have gone stale -/

/-- The part of the checks that no other thread can take back. -/
def Call.Permitted : Call → Prop
  | .terminate tid => tid ≠ mainThread
  | .suspend tid => tid ≠ mainThread
  | .spawn _ => True
  | .resume _ => True

theorem permitted_of_check (h : check s c = none) : c.Permitted := by
  cases c with
  | spawn => trivial
  | resume => trivial
  | terminate tid =>
    rintro rfl
    simp [check, terminateCheck] at h
  | suspend tid =>
    rintro rfl
    simp [check, suspendCheck] at h

theorem Lib.getElem?_of_notMem {tid : ℤ} (h : tid ∉ s.threads) : s.threads[tid]? = none :=
  Std.TreeMap.getElem?_eq_none h

/-- The running thread is in `_threads`, so an id that is not there is not its own. -/
theorem Wf.ne_tid_of_notMem (h : Wf [] s) (hr : s.running = some r) {tid : ℤ}
    (hmem : tid ∉ s.threads) : tid ≠ (s.heap r).tid := by
  rintro rfl
  have hlive : s.threads[(s.heap r).tid]? = some r := h.live_of_running hr
  rw [Lib.getElem?_of_notMem hmem] at hlive
  cases hlive

/-- **What a body does**, whether or not its checks still hold, unless it fails in a lookup. -/
theorem body_effect (h : Settled s) (hc : c.Permitted) (hb : body s c = .ok (x, t)) :
    Effect s (.body c) x t := by
  obtain ⟨r, hr⟩ := Option.isSome_iff_exists.mp h.running
  have hr' : s.sigBlock.running = some r := hr
  have hspec : s.Established c → Effect s (.body c) x t := by
    intro hest
    obtain ⟨x', t', hact, he⟩ := act_spec h.wf hr (.body c) (by rintro _ ⟨⟩; exact hest)
    rw [act, hb] at hact
    cases hact
    exact he
  by_cases hest : s.Established c
  · exact hspec hest
  cases c with
  | spawn pr =>
    rw [body, spawnBody_eq hr] at hb
    cases hb
    exact .spawn hr pr
  | terminate tid =>
    have hmem : tid ∉ s.threads := fun hm ↦ hest ⟨hc, hm⟩
    have hne : tid ≠ (s.sigBlock.heap r).tid := h.wf.ne_tid_of_notMem hr hmem
    have hat : s.sigBlock.threadsAt tid = .error .outOfRange := by
      rw [Lib.threadsAt, show s.sigBlock.threads = s.threads from rfl,
        Lib.getElem?_of_notMem hmem]
    rw [body, terminateBody, Lib.derefRunning_of_some hr', ok_bind, if_neg hne, hat] at hb
    cases hb
  | suspend tid =>
    have hmem : tid ∉ s.threads := fun hm ↦ hest ⟨hc, hm⟩
    have hne : tid ≠ (s.sigBlock.heap r).tid := h.wf.ne_tid_of_notMem hr hmem
    have hget : s.sigBlock.threadsGet tid = .error .nullThread := by
      rw [Lib.threadsGet, show s.sigBlock.threads = s.threads from rfl,
        Lib.getElem?_of_notMem hmem]
    rw [body, suspendBody, Lib.derefRunning_of_some hr', ok_bind, if_neg hne, hget] at hb
    cases hb
  | resume tid =>
    cases hp : s.threads[tid]? with
    | none =>
      rw [body, resumeBody, Lib.threadsGet, show s.sigBlock.threads = s.threads from rfl, hp] at hb
      cases hb
    | some p =>
      have hmem : p ∉ s.blocked := fun hm ↦ hest ⟨p, hp, hm⟩
      have hidx : s.blocked[s.blocked.idxOf p]? = none := by
        rw [List.getElem?_eq_none_iff, List.idxOf_eq_length hmem]
      rw [body, resumeBody, Lib.threadsGet_of_some (by exact hp), ok_bind,
        show s.sigBlock.blocked = s.blocked from rfl, hidx] at hb
      cases hb

/-! ## The process -/

/-- An event of the process: something the library does, or a call that only looks. -/
inductive ProcessEvent
  | split (e : SplitEvent)
  | query (q : Query)
  deriving DecidableEq, Repr

namespace SplitMachine

variable {m n : SplitMachine}

/-- What happens at an event.  A thread makes a call when it is in its own code. -/
def processStep (m : SplitMachine) : ProcessEvent → Option SplitMachine
  | .split e => m.step e
  | .query q =>
    match m.current with
    | some (_, none) =>
      match Uthreads.query m.lib q with
      | .ok (_, s) => some { m with lib := s }
      | .error _ => none
    | _ => none

/-- The invariant of all runs. -/
structure Guarded (m : SplitMachine) : Prop where
  /-- The data fit together. -/
  settled : Settled m.lib
  /-- No thread is about to suspend or terminate the main thread. -/
  permitted : ∀ r c, m.pending r = some c → c.Permitted
  /-- A thread's own code runs with the signal unblocked, now and after every switch. -/
  unmasked : Unmasked m.toMachine

/-- The library does something, and the invariant holds again. -/
theorem Guarded.perform (hm : m.Guarded) {a : Act} (ha : m.MayDo a)
    {pend : ThreadPtr → Option Call} (hpend : ∀ r c, pend r = some c → c.Permitted)
    (h : m.perform a pend = some n) : n.Guarded := by
  obtain ⟨r, hr⟩ := Option.isSome_iff_exists.mp hm.settled.running
  have heff : ∀ x t, act m.lib a = .ok (x, t) → Effect m.lib a x t := by
    intro x t hact
    match a with
    | .body c =>
      obtain ⟨r', hcur⟩ := ha
      exact body_effect hm.settled (hm.permitted r' c (current_eq_some.mp hcur).2.2) hact
    | .tick =>
      obtain ⟨x', t', hact', he⟩ := act_spec hm.settled.wf hr .tick (by simp)
      cases hact.symm.trans hact'
      exact he
    | .land =>
      obtain ⟨x', t', hact', he⟩ := act_spec hm.settled.wf hr .land (by simp)
      cases hact.symm.trans hact'
      exact he
  have htick : a = .tick → m.lib.mask = false := by
    rintro rfl
    exact hm.unmasked.user ha
  rw [SplitMachine.perform] at h
  rcases hact : act m.lib a with f | ⟨x, t⟩
  · rw [hact] at h
    cases h
  · have he := heff x t hact
    have hset := he.settled hm.settled
    have hne := he.ne_exited
    rw [hact] at h
    cases x with
    | exited => exact absurd rfl hne
    | _ =>
      cases h
      exact ⟨hset, hpend, hm.unmasked.act hm.settled htick hact he (by simp)⟩

/-- **The step lemma.** -/
theorem Guarded.step (hm : m.Guarded) {e : ProcessEvent} (h : m.processStep e = some n) :
    n.Guarded := by
  cases e with
  | split e =>
    rcases step_cases h with ⟨a, -, -, ha, h⟩ | ⟨-, rfl⟩ | ⟨r, c, -, -, hc, rfl⟩ |
      ⟨r, c, rfl, hcur, h⟩
    · exact hm.perform ha hm.permitted h
    · exact hm
    · refine ⟨hm.settled, fun q c' hq ↦ ?_, hm.unmasked⟩
      by_cases hqr : q = r
      · have hcc : c = c' := by simpa [hqr] using hq
        exact hcc ▸ permitted_of_check hc
      · exact hm.permitted q c' (by simpa [hqr] using hq)
    · have ha : m.MayDo (.body c) := ⟨r, hcur⟩
      exact hm.perform ha (fun q c' hq ↦ hm.permitted q c' (update_none_eq_some hq).2) h
  | query q =>
    simp only [processStep] at h
    split at h
    · rename_i r hcur
      obtain ⟨hu, hr, -⟩ := current_eq_some.mp hcur
      obtain ⟨v, hq⟩ := query_spec hr (hm.unmasked.user hu) q
      rw [hq] at h
      cases h
      exact hm
    · cases h

/-- **Preemption is never switched off for good.**  In every run of ticks and calls, in any order
and also with ticks between the checks and the body of a call, whenever a thread's own code runs the
timer signal is not blocked. -/
theorem exec_unmasked {q : ℤ} {s₀ : Lib} {es : List ProcessEvent}
    (h0 : uthreadInit Lib.fresh q = (success, s₀))
    (h : Run.exec processStep (start s₀) es = some m) : m.ctl = .user → m.lib.mask = false := by
  have hnil : Run.exec Machine.step (.start s₀) [] = some (.start s₀) := rfl
  obtain ⟨⟨hset, -⟩, -, hun⟩ := exec_ids h0 hnil
  have hstart : (start s₀).Guarded := ⟨hset, fun _ _ hp ↦ (by cases hp), hun⟩
  exact (Run.exec_induction (fun _ _ _ hm hst ↦ hm.step hst) hstart h).unmasked.user

/-- A run in which a thread starts, is switched out by the timer, suspends another one, looks, and
terminates itself. -/
def maskEvents : List ProcessEvent :=
  [.split (.check (.spawn .red)), .split .body, .split .tick, .split .land, .query (.getQuantums 1),
    .split (.check (.spawn .red)), .split .body, .split (.check (.suspend 2)), .split .tick,
    .split .land, .split .tick, .split .land, .split .body, .split (.check (.terminate 1)),
    .split .body, .split .land]

theorem exec_unmasked_sample :
    ∃ m, Run.exec processStep (start (uthreadInit Lib.fresh 1).2) maskEvents = some m ∧
      m.ctl = .user ∧ m.lib.mask = false := by
  obtain ⟨m, hm, hctl⟩ : ∃ m, Run.exec processStep (start (uthreadInit Lib.fresh 1).2)
      maskEvents = some m ∧ m.ctl = .user := by
    rw [← Option.map_eq_some_iff]
    decide
  exact ⟨m, hm, hctl, exec_unmasked (q := 1) rfl hm hctl⟩

end SplitMachine

end Uthreads
