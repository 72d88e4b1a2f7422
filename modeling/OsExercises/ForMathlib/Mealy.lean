import Mathlib.Data.Nat.Notation

/-!
# Machines that answer

A machine `respond : σ → ι → ο × σ` answers every input with an output and goes to a new state.  Two
states that cannot be told apart by the answers of any sequence of inputs are as good as the same.
The way to show it is a relation that every input keeps and under which the answers agree.
-/

set_option autoImplicit false

namespace Mealy

universe u v w

variable {σ : Type u} {ι : Type v} {ο : Type w} {respond : σ → ι → ο × σ}

/-- The answers to a sequence of inputs. -/
def answers (respond : σ → ι → ο × σ) : σ → List ι → List ο
  | _, [] => []
  | s, i :: is => (respond s i).1 :: answers respond (respond s i).2 is

/-- No sequence of inputs tells the two states apart. -/
def Alike (respond : σ → ι → ο × σ) (s t : σ) : Prop :=
  ∀ is, answers respond s is = answers respond t is

/-- **The rule for relations.**  What every input keeps, and what makes the answers agree, makes all
the answers agree. -/
theorem alike_of_rel {R : σ → σ → Prop}
    (hR : ∀ s t i, R s t → (respond s i).1 = (respond t i).1 ∧ R (respond s i).2 (respond t i).2)
    {s t : σ} (h : R s t) : Alike respond s t := by
  intro is
  induction is generalizing s t with
  | nil => rfl
  | cons i is ih =>
    obtain ⟨ho, hst⟩ := hR s t i h
    rw [answers, answers, ho, ih hst]

end Mealy
