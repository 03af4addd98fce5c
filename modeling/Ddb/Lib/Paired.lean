import Mathlib.Data.List.Forall2

/-!
# Lists paired by a relation

What stands at a place of one list, and what belongs to it in the other.
-/

namespace Ddb.Lib

variable {α β : Type*} {R : α → β → Prop} {xs : List α} {ys : List β} {y : β}

theorem exists_forall₂ (h : ∀ x ∈ xs, ∃ y, R x y) : ∃ ys, List.Forall₂ R xs ys := by
  induction xs with
  | nil => exact ⟨[], .nil⟩
  | cons x xs ih =>
    obtain ⟨⟨y, hy⟩, hxs⟩ := List.forall_mem_cons.mp h
    obtain ⟨ys, hys⟩ := ih hxs
    exact ⟨y :: ys, .cons hy hys⟩

theorem exists_left_of_mem (h : List.Forall₂ R xs ys) (hy : y ∈ ys) : ∃ x ∈ xs, R x y := by
  induction h with
  | nil => cases hy
  | cons hR _ ih =>
    rcases List.mem_cons.mp hy with rfl | hy
    · exact ⟨_, List.mem_cons_self .., hR⟩
    · obtain ⟨x, hx, hR⟩ := ih hy
      exact ⟨x, List.mem_cons_of_mem _ hx, hR⟩

end Ddb.Lib
