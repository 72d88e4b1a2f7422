import Mathlib.Data.Fintype.Order
import Mathlib.Logic.Relation
import Mathlib.Order.WellFounded

/-!
# Locks that are taken in order

Threads hold locks and wait for locks.  If the locks are ordered, and a thread only ever waits for a
lock that is above all the locks it holds, then waiting does not go round in circles: along a chain
of threads that wait for one another the locks rise, so a chain ends at a thread that does not wait
for any other (`Ordered.exists_going`).
-/

set_option autoImplicit false

universe u v

/-- Who holds which lock, and which lock a thread is waiting for. -/
structure LockTable (ι : Type u) (α : Type v) where
  /-- The thread that holds a lock. -/
  owner : α → Option ι
  /-- The lock a thread wants to take next. -/
  wants : ι → Option α

namespace LockTable

variable {ι : Type u} {α : Type v} (t : LockTable ι α) {i j : ι}

/-- `i` waits for `j`: it wants a lock that `j` holds. -/
def Waits (i j : ι) : Prop := ∃ a, t.wants i = some a ∧ t.owner a = some j

/-- A thread wants only what is above all the locks it holds. -/
def Ordered [LT α] : Prop := ∀ i a b, t.wants i = some a → t.owner b = some i → b < a

variable {t}

/-- **Every chain ends** at a thread that waits for nobody. -/
theorem Ordered.exists_going [Preorder α] [Finite α] (h : t.Ordered) (i : ι) :
    ∃ j, Relation.ReflTransGen t.Waits i j ∧ ∀ k, ¬t.Waits j k := by
  -- the induction is on the lock that is wanted, from the greatest ones down
  have hwant : ∀ a i, t.wants i = some a →
      ∃ j, Relation.ReflTransGen t.Waits i j ∧ ∀ k, ¬t.Waits j k := by
    intro a
    induction a using WellFoundedGT.induction with
    | _ a ih =>
      intro i ha
      by_cases hi : ∃ j, t.Waits i j
      · obtain ⟨j, b, hb, hj⟩ := hi
        cases ha.symm.trans hb
        cases hc : t.wants j with
        | none => exact ⟨j, .single ⟨a, ha, hj⟩, fun k ⟨c, hc', _⟩ ↦ by simp [hc] at hc'⟩
        | some c =>
          obtain ⟨k, hjk, hk⟩ := ih c (h j c a hc hj) j hc
          exact ⟨k, .head ⟨a, ha, hj⟩ hjk, hk⟩
      · exact ⟨i, .refl, fun k hk ↦ hi ⟨k, hk⟩⟩
  cases ha : t.wants i with
  | none => exact ⟨i, .refl, fun k ⟨c, hc, _⟩ ↦ by simp [ha] at hc⟩
  | some a => exact hwant a i ha

end LockTable
