import Mathlib.Data.List.Nodup
import Mathlib.Data.List.Pairwise

/-!
# Taking turns

A line of people takes turns: the first one has a turn and goes to the end of the line.  After `n`
turns the line is rotated by `n` (`List.rotate`), and `RoundRobin.turns n l x` is how often `x` has
had a turn.  The one fact about it is that nobody is more than one turn ahead of anybody else
(`RoundRobin.turns_le`): those nearer to the front have had as many turns as those behind them or
one more.
-/

set_option autoImplicit false

namespace RoundRobin

variable {α : Type*} [DecidableEq α]

/-- How many of the first `n` turns of the line `l` are the turns of `x`. -/
def turns : ℕ → List α → α → ℕ
  | n + 1, a :: l, x => turns n (l ++ [a]) x + if a = x then 1 else 0
  | _, _, _ => 0

@[simp] theorem turns_zero (l : List α) (x : α) : turns 0 l x = 0 := by rw [turns]; simp

theorem turns_succ (n : ℕ) (a : α) (l : List α) (x : α) :
    turns (n + 1) (a :: l) x = turns n (l ++ [a]) x + if a = x then 1 else 0 := by rw [turns]

/-- Somebody who is not in the line has no turn. -/
theorem turns_of_notMem (n : ℕ) {l : List α} {x : α} (hx : x ∉ l) : turns n l x = 0 := by
  induction n generalizing l with
  | zero => exact turns_zero l x
  | succ n ih =>
    match l with
    | [] => rfl
    | a :: l =>
      have hax : a ≠ x := fun h ↦ hx (h ▸ List.mem_cons_self)
      have hrest : x ∉ l ++ [a] := fun h ↦ hx ((List.perm_append_singleton a l).mem_iff.mp h)
      rw [turns_succ, ih hrest, if_neg hax]

/-- Those nearer to the front of the line have had as many turns as those behind them, or one
more. -/
theorem pairwise_turns (n : ℕ) {l : List α} (hl : l.Nodup) :
    l.Pairwise fun x y ↦ turns n l y ≤ turns n l x ∧ turns n l x ≤ turns n l y + 1 := by
  induction n generalizing l with
  | zero => exact List.pairwise_of_forall (by simp)
  | succ n ih =>
    match l with
    | [] => exact .nil
    | a :: l =>
      obtain ⟨ha, hl'⟩ := List.nodup_cons.mp hl
      have hnodup : (l ++ [a]).Nodup := List.nodup_append_comm.mpr hl
      obtain ⟨hfront, -, hlast⟩ := List.pairwise_append.mp (ih hnodup)
      have hne : ∀ x ∈ l, turns (n + 1) (a :: l) x = turns n (l ++ [a]) x := by
        intro x hx
        have hax : a ≠ x := fun h ↦ ha (h ▸ hx)
        rw [turns_succ, if_neg hax, Nat.add_zero]
      refine List.pairwise_cons.mpr ⟨fun x hx ↦ ?_, hfront.imp_of_mem fun {x y} hx hy h ↦ ?_⟩
      · -- `a` has had the first turn, and no other one before `x`
        have h := hlast x hx a (List.mem_singleton_self a)
        rw [hne x hx, turns_succ, if_pos rfl]
        omega
      · rwa [hne x hx, hne y hy]

/-- **Nobody is more than one turn ahead.** -/
theorem turns_le (n : ℕ) {l : List α} (hl : l.Nodup) {x y : α} (hx : x ∈ l) (hy : y ∈ l) :
    turns n l x ≤ turns n l y + 1 := by
  have hsymm : Std.Symm fun x y ↦ turns n l x ≤ turns n l y + 1 ∧ turns n l y ≤ turns n l x + 1 :=
    ⟨fun _ _ h ↦ ⟨h.2, h.1⟩⟩
  have h := (pairwise_turns n hl).imp fun {x y} h ↦
    show turns n l x ≤ turns n l y + 1 ∧ turns n l y ≤ turns n l x + 1 from ⟨h.2, by omega⟩
  exact (h.forall_of_forall (fun _ _ ↦ ⟨Nat.le_succ _, Nat.le_succ _⟩) hx hy).1

end RoundRobin
