import Mathlib.Data.Nat.Notation
import Mathlib.Logic.Basic

/-!
# Runs of a labelled system

A program that reacts to calls, signals or messages is a function `step : σ → ε → Option σ`: the
state after an event, or `none` when the event cannot happen there.  Whatever the environment
chooses (which call comes next, which of several equal candidates is picked, how many bytes a read
returns) is part of the event, so a run is determined by where it starts and its list of events.
This file has the few rules every argument about runs goes through.

* `Run.exec` is the state after a list of events, and `Run.Reaches` says that there is such a list.
* `Run.exec_induction` is the invariant rule.  `Run.Meets` says that every step of a run meets a
  condition on the state it starts from and its event, and `Run.meets_induction` is the invariant
  rule for runs of that kind.
* `Run.Always` says that every state of a run has a property.  When a property is kept by exactly
  the steps that meet a condition, the runs that always have it are exactly the runs that meet the
  condition (`Run.always_iff_meets`).  `Run.meets_congr` compares two conditions.
* `Run.length_add_le_of_exec` bounds the length of runs by a measure.
* `Run.Reaches.simulate` transports reachability along an abstraction function.
-/

set_option autoImplicit false

namespace Run

universe u v w x

variable {σ : Type u} {ε : Type v} (step : σ → ε → Option σ)

/-! ## The state after a list of events -/

/-- The state a run that starts in `s` has reached after the events `es`, if all of them can
happen. -/
def exec : σ → List ε → Option σ
  | s, [] => some s
  | s, e :: es => (step s e).bind fun t ↦ exec t es

/-- `t` is the state after some run from `s`. -/
def Reaches (s t : σ) : Prop := ∃ es, exec step s es = some t

/-- Every step of the run meets the condition `ok`, on the state it starts from and its event. -/
def Meets (ok : σ → ε → Prop) : σ → List ε → Prop
  | _, [] => True
  | s, e :: es => ∀ t, step s e = some t → ok s e ∧ Meets ok t es

/-- Every state of the run has the property `P`. -/
def Always (P : σ → Prop) : σ → List ε → Prop
  | s, [] => P s
  | s, e :: es => P s ∧ ∀ t, step s e = some t → Always P t es

variable {step}

@[simp] theorem exec_nil (s : σ) : exec step s [] = some s := rfl

theorem exec_cons_eq_some {s u : σ} {e : ε} {es : List ε} :
    exec step s (e :: es) = some u ↔ ∃ t, step s e = some t ∧ exec step t es = some u := by
  rw [exec, Option.bind_eq_some_iff]

theorem exec_append {s : σ} {es fs : List ε} :
    exec step s (es ++ fs) = (exec step s es).bind fun t ↦ exec step t fs := by
  induction es generalizing s with
  | nil => rfl
  | cons e es ih =>
    rw [List.cons_append, exec, exec, Option.bind_assoc]
    congr 1
    funext t
    exact ih

/-- A run followed by one more step. -/
theorem exec_concat {s t u : σ} {es : List ε} {e : ε} (h : exec step s es = some t)
    (he : step t e = some u) : exec step s (es ++ [e]) = some u := by
  rw [exec_append, h, Option.bind_some, exec, he, Option.bind_some, exec]

theorem Reaches.refl (s : σ) : Reaches step s s := ⟨[], rfl⟩

theorem Reaches.tail {s t u : σ} {e : ε} (h : Reaches step s t) (he : step t e = some u) :
    Reaches step s u := by
  obtain ⟨es, hes⟩ := h
  exact ⟨es ++ [e], exec_concat hes he⟩

theorem Reaches.trans {s t u : σ} (h : Reaches step s t) (h' : Reaches step t u) :
    Reaches step s u := by
  obtain ⟨es, hes⟩ := h
  obtain ⟨fs, hfs⟩ := h'
  exact ⟨es ++ fs, by rw [exec_append, hes, Option.bind_some, hfs]⟩

/-! ## Invariants -/

/-- **The invariant rule.**  What one step keeps, every run keeps. -/
theorem exec_induction {I : σ → Prop} (hI : ∀ s e t, I s → step s e = some t → I t) {s t : σ}
    {es : List ε} (hs : I s) (h : exec step s es = some t) : I t := by
  induction es generalizing s with
  | nil => exact Option.some.inj h ▸ hs
  | cons e es ih =>
    obtain ⟨u, hu, hut⟩ := exec_cons_eq_some.mp h
    exact ih (hI s e u hs hu) hut

theorem Reaches.induction {I : σ → Prop} (hI : ∀ s e t, I s → step s e = some t → I t) {s t : σ}
    (hs : I s) (h : Reaches step s t) : I t := by
  obtain ⟨es, hes⟩ := h
  exact exec_induction hI hs hes

/-- **The invariant rule for conditional runs.**  What is kept by every step that meets `ok` is
kept by every run whose steps all meet it. -/
theorem meets_induction {I : σ → Prop} {ok : σ → ε → Prop}
    (hI : ∀ s e t, I s → ok s e → step s e = some t → I t) {s t : σ} {es : List ε} (hs : I s)
    (hok : Meets step ok s es) (h : exec step s es = some t) : I t := by
  induction es generalizing s with
  | nil => exact Option.some.inj h ▸ hs
  | cons e es ih =>
    obtain ⟨u, hu, hut⟩ := exec_cons_eq_some.mp h
    obtain ⟨hse, hrest⟩ := hok u hu
    exact ih (hI s e u hs hse hu) hrest hut

/-- The same for all states of the run. -/
theorem always_of_meets {I P : σ → Prop} {ok : σ → ε → Prop}
    (hI : ∀ s e t, I s → ok s e → step s e = some t → I t) (hIP : ∀ s, I s → P s) {s : σ}
    {es : List ε} (hs : I s) (hok : Meets step ok s es) : Always step P s es := by
  induction es generalizing s with
  | nil => exact hIP s hs
  | cons e es ih =>
    refine ⟨hIP s hs, fun t ht ↦ ?_⟩
    obtain ⟨hse, hrest⟩ := hok t ht
    exact ih (hI s e t hs hse ht) hrest

/-- The steps of a run meet a condition if those of its first part and those of the rest do. -/
theorem meets_append {ok : σ → ε → Prop} {s t : σ} {es fs : List ε} (h : exec step s es = some t)
    (hes : Meets step ok s es) (hfs : Meets step ok t fs) : Meets step ok s (es ++ fs) := by
  induction es generalizing s with
  | nil => exact Option.some.inj h ▸ hfs
  | cons e es ih =>
    obtain ⟨u, hu, hut⟩ := exec_cons_eq_some.mp h
    obtain ⟨hse, hrest⟩ := hes u hu
    refine fun v hv ↦ ⟨hse, ?_⟩
    rw [← Option.some.inj (hu.symm.trans hv)]
    exact ih hut hrest

/-- A condition on the events alone is met when all events meet it. -/
theorem meets_of_forall {P : ε → Prop} {s : σ} {es : List ε} (h : ∀ e ∈ es, P e) :
    Meets step (fun _ e ↦ P e) s es := by
  induction es generalizing s with
  | nil => trivial
  | cons e es ih =>
    obtain ⟨he, hes⟩ := List.forall_mem_cons.mp h
    exact fun t _ ↦ ⟨he, ih hes⟩

/-- A property all states of a run have is one of the state it starts in. -/
theorem Always.start {P : σ → Prop} {s : σ} {es : List ε} (hP : Always step P s es) : P s := by
  cases es with
  | nil => exact hP
  | cons => exact hP.1

/-- A property all states of a run have is one of the state it ends in. -/
theorem Always.of_exec {P : σ → Prop} {s t : σ} {es : List ε} (hP : Always step P s es)
    (h : exec step s es = some t) : P t := by
  induction es generalizing s with
  | nil => exact Option.some.inj h ▸ hP
  | cons e es ih =>
    obtain ⟨u, hu, hut⟩ := exec_cons_eq_some.mp h
    exact ih (hP.2 u hu) hut

/-- **Exactly the runs that meet the condition keep the property.**  The invariant `I` is kept by
the steps that meet the condition and gives the property; a step that does not meet the condition
loses the property. -/
theorem always_iff_meets {I P : σ → Prop} {ok : σ → ε → Prop}
    (hI : ∀ s e t, I s → ok s e → step s e = some t → I t) (hIP : ∀ s, I s → P s)
    (hP : ∀ s e t, I s → step s e = some t → P t → ok s e) {s : σ} {es : List ε} (hs : I s) :
    Always step P s es ↔ Meets step ok s es := by
  induction es generalizing s with
  | nil => simp [Always, Meets, hIP s hs]
  | cons e es ih =>
    simp only [Always, Meets, hIP s hs, true_and]
    refine forall₂_congr fun t ht ↦ ?_
    constructor
    · intro h
      have hse : ok s e := hP s e t hs ht h.start
      exact ⟨hse, (ih (hI s e t hs hse ht)).mp h⟩
    · rintro ⟨hse, hrest⟩
      exact (ih (hI s e t hs hse ht)).mpr hrest

/-- Two conditions that agree in all states with the invariant are met by the same runs. -/
theorem meets_congr {I : σ → Prop} {ok ok' : σ → ε → Prop}
    (hI : ∀ s e t, I s → step s e = some t → I t)
    (hok : ∀ s e t, I s → step s e = some t → (ok s e ↔ ok' s e)) {s : σ} {es : List ε} (hs : I s) :
    Meets step ok s es ↔ Meets step ok' s es := by
  induction es generalizing s with
  | nil => exact Iff.rfl
  | cons e es ih =>
    simp only [Meets]
    refine forall₂_congr fun t ht ↦ ?_
    rw [hok s e t hs ht, ih (hI s e t hs ht)]

/-- A property no step can bring back holds all along a run that ends with it. -/
theorem always_of_exec {I P : σ → Prop} (hI : ∀ s e t, I s → step s e = some t → I t)
    (hP : ∀ s e t, I s → step s e = some t → P t → P s) {s t : σ} {es : List ε} (hs : I s)
    (h : exec step s es = some t) (ht : P t) : Always step P s es := by
  induction es generalizing s with
  | nil => exact Option.some.inj h ▸ ht
  | cons e es ih =>
    obtain ⟨u, hu, hut⟩ := exec_cons_eq_some.mp h
    have hrest := ih (hI s e u hs hu) hut
    refine ⟨hP s e u hs hu hrest.start, fun v hv ↦ ?_⟩
    rwa [← Option.some.inj (hu.symm.trans hv)]

theorem always_cons_of_none {P : σ → Prop} {s : σ} {e : ε} (h : step s e = none) (es : List ε) :
    Always step P s (e :: es) ↔ P s :=
  and_iff_left fun _ ht ↦ nomatch h.symm.trans ht

theorem always_cons_of_some {P : σ → Prop} {s t : σ} {e : ε} (h : step s e = some t)
    (es : List ε) : Always step P s (e :: es) ↔ P s ∧ Always step P t es :=
  and_congr_right fun _ ↦ ⟨fun ht ↦ ht t h, fun ht _ hu ↦ Option.some.inj (h.symm.trans hu) ▸ ht⟩

/-- Whether all states of a run have a property can be computed. -/
instance decidableAlways {P : σ → Prop} [DecidablePred P] :
    (s : σ) → (es : List ε) → Decidable (Always step P s es)
  | s, [] => inferInstanceAs (Decidable (P s))
  | s, e :: es =>
    match h : step s e with
    | none => decidable_of_iff (P s) (always_cons_of_none h es).symm
    | some t =>
      have : Decidable (Always step P t es) := decidableAlways t es
      decidable_of_iff (P s ∧ Always step P t es) (always_cons_of_some h es).symm

/-- What every step keeps, every state of a run has. -/
theorem always_of_invariant {I : σ → Prop} (hI : ∀ s e t, I s → step s e = some t → I t) {s : σ}
    (hs : I s) (es : List ε) : Always step I s es := by
  induction es generalizing s with
  | nil => exact hs
  | cons e es ih => exact ⟨hs, fun t ht ↦ ih (hI s e t hs ht)⟩

theorem Always.and {P Q : σ → Prop} {s : σ} {es : List ε} (hP : Always step P s es)
    (hQ : Always step Q s es) : Always step (fun s ↦ P s ∧ Q s) s es := by
  induction es generalizing s with
  | nil => exact ⟨hP, hQ⟩
  | cons e es ih => exact ⟨⟨hP.1, hQ.1⟩, fun t ht ↦ ih (hP.2 t ht) (hQ.2 t ht)⟩

/-- The steps of a run whose states have a property meet what follows from it. -/
theorem Always.meets {P : σ → Prop} {ok : σ → ε → Prop}
    (h : ∀ s e t, P s → step s e = some t → ok s e) {s : σ} {es : List ε}
    (hP : Always step P s es) : Meets step ok s es := by
  induction es generalizing s with
  | nil => trivial
  | cons e es ih => exact fun t ht ↦ ⟨h s e t hP.1 ht, ih (hP.2 t ht)⟩

/-- **Exactly the runs that meet the condition keep the property**, when exactly the steps that meet
it do.  All states of the run may have a further property. -/
theorem Always.iff_meets {J P : σ → Prop} {ok : σ → ε → Prop}
    (h : ∀ s e t, J s → P s → step s e = some t → (P t ↔ ok s e)) {s : σ} {es : List ε}
    (hJ : Always step J s es) (hs : P s) : Always step P s es ↔ Meets step ok s es := by
  induction es generalizing s with
  | nil => exact iff_of_true hs trivial
  | cons e es ih =>
    simp only [Always, Meets, hs, true_and]
    refine forall₂_congr fun t ht ↦ ?_
    rw [← h s e t hJ.1 hs ht]
    constructor
    · intro hP
      exact ⟨hP.start, (ih (hJ.2 t ht) hP.start).mp hP⟩
    · rintro ⟨hPt, hrest⟩
      exact (ih (hJ.2 t ht) hPt).mpr hrest

theorem Always.imp {P Q : σ → Prop} (h : ∀ s, P s → Q s) {s : σ} {es : List ε}
    (hP : Always step P s es) : Always step Q s es := by
  induction es generalizing s with
  | nil => exact h s hP
  | cons e es ih => exact ⟨h s hP.1, fun t ht ↦ ih (hP.2 t ht)⟩

/-- **The rule for the length of runs.**  Steps that keep an invariant and make a measure smaller
run out. -/
theorem length_add_le_of_exec {I : σ → Prop} {f : σ → ℕ}
    (hf : ∀ s e t, I s → step s e = some t → I t ∧ f t < f s) {s t : σ} {es : List ε} (hs : I s)
    (h : exec step s es = some t) : es.length + f t ≤ f s := by
  induction es generalizing s with
  | nil => simp [Option.some.inj h]
  | cons e es ih =>
    obtain ⟨u, hu, hut⟩ := exec_cons_eq_some.mp h
    obtain ⟨hI, hlt⟩ := hf s e u hs hu
    have hle := ih hI hut
    rw [List.length_cons]
    omega

/-! ## Abstraction -/

/-- **Simulation.**  If every step of a system is matched by a run of another one between the
abstracted states, so is every run. -/
theorem Reaches.simulate {τ : Type w} {δ : Type x} {step' : τ → δ → Option τ} {f : σ → τ}
    (hf : ∀ s e t, step s e = some t → Reaches step' (f s) (f t)) {s t : σ}
    (h : Reaches step s t) : Reaches step' (f s) (f t) :=
  h.induction (I := fun u ↦ Reaches step' (f s) (f u)) (fun _ _ _ hs he ↦ hs.trans (hf _ _ _ he))
    (.refl _)

end Run
