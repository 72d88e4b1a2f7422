import Mathlib.Data.List.Basic

/-!
# Text with separators

Records are written one after another, with a separator behind each of them, and fields with a
separator between them.  Where the separator does not occur in what it separates, the text can be
cut in one way only.

* `Separated.append_cons_inj`: a text is cut at its first separator in one way, and
  `Separated.append_cons_inj_right`: at its last one.
* `Separated.flatMap_inj`: a text is a list of records in one way.
-/

set_option autoImplicit false

universe u v

namespace Separated

variable {α : Type u} {a : α} {x x' y y' : List α}

/-- **One way to cut at the first separator.** -/
theorem append_cons_inj (hx : a ∉ x) (hx' : a ∉ x') (h : x ++ a :: y = x' ++ a :: y') :
    x = x' ∧ y = y' := by
  induction x generalizing x' with
  | nil =>
    cases x' with
    | nil => exact ⟨rfl, (List.cons.inj h).2⟩
    | cons b x' =>
      rw [List.nil_append, List.cons_append] at h
      exact absurd ((List.cons.inj h).1 ▸ List.mem_cons_self) hx'
  | cons b x ih =>
    cases x' with
    | nil =>
      rw [List.nil_append, List.cons_append] at h
      exact absurd ((List.cons.inj h).1 ▸ List.mem_cons_self) hx
    | cons c x' =>
      obtain ⟨rfl, hrest⟩ := List.cons.inj h
      obtain ⟨rfl, rfl⟩ := ih (fun hm ↦ hx (List.mem_cons_of_mem _ hm))
        (fun hm ↦ hx' (List.mem_cons_of_mem _ hm)) hrest
      exact ⟨rfl, rfl⟩

/-- **One way to cut at the last separator.** -/
theorem append_cons_inj_right (hy : a ∉ y) (hy' : a ∉ y') (h : x ++ a :: y = x' ++ a :: y') :
    x = x' ∧ y = y' := by
  have hrev : y.reverse ++ a :: x.reverse = y'.reverse ++ a :: x'.reverse := by
    simpa using congrArg List.reverse h
  obtain ⟨h1, h2⟩ := append_cons_inj (by simpa using hy) (by simpa using hy') hrev
  exact ⟨List.reverse_injective h2, List.reverse_injective h1⟩

/-- **One way to cut into records**, when no record holds the separator and different records are
written differently. -/
theorem flatMap_inj {β : Type v} {f : β → List α} {P : β → Prop} (hsep : ∀ b, P b → a ∉ f b)
    (hinj : ∀ b b', P b → P b' → f b = f b' → b = b') {l l' : List β} (hl : ∀ b ∈ l, P b)
    (hl' : ∀ b ∈ l', P b)
    (h : l.flatMap (fun b ↦ f b ++ [a]) = l'.flatMap fun b ↦ f b ++ [a]) : l = l' := by
  induction l generalizing l' with
  | nil =>
    cases l' with
    | nil => rfl
    | cons b l' => simp at h
  | cons b l ih =>
    cases l' with
    | nil => simp at h
    | cons b' l' =>
      obtain ⟨hb, hrest⟩ := List.forall_mem_cons.mp hl
      obtain ⟨hb', hrest'⟩ := List.forall_mem_cons.mp hl'
      rw [List.flatMap_cons, List.flatMap_cons, List.append_assoc, List.append_assoc,
        List.singleton_append, List.singleton_append] at h
      obtain ⟨hf, hlines⟩ := append_cons_inj (hsep b hb) (hsep b' hb') h
      rw [hinj b b' hb hb' hf, ih hrest hrest' hlines]

end Separated
