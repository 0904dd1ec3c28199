import Mathlib

/-!
# Layers

Sets of numbers laid out one after the other: each lies in an interval that ends where the next one
starts. Such sets are pairwise disjoint and stay below the last end.
-/

set_option autoImplicit false
set_option relaxedAutoImplicit false

namespace NoOsKernel.Lib

/-- The sets lie in consecutive intervals between `lo` and `hi`. -/
inductive Layered : ℕ → List (Set ℕ) → ℕ → Prop
  | nil {lo hi : ℕ} : lo ≤ hi → Layered lo [] hi
  | cons {lo mid hi : ℕ} {r : Set ℕ} {rs : List (Set ℕ)} :
    r ⊆ Set.Ico lo mid → lo ≤ mid → Layered mid rs hi → Layered lo (r :: rs) hi

variable {lo hi : ℕ} {rs : List (Set ℕ)}

/-- The members of layered sets lie between the ends. -/
theorem Layered.bounds (h : Layered lo rs hi) : lo ≤ hi ∧ ∀ r ∈ rs, r ⊆ Set.Ico lo hi := by
  induction h with
  | nil hle => exact ⟨hle, nofun⟩
  | cons hsub hle _ ih =>
    refine ⟨hle.trans ih.1, fun r hr ↦ ?_⟩
    rcases List.mem_cons.mp hr with rfl | hrest
    · exact hsub.trans (Set.Ico_subset_Ico_right ih.1)
    · exact (ih.2 r hrest).trans (Set.Ico_subset_Ico_left hle)

/-- Layered sets are pairwise disjoint. -/
theorem Layered.pairwise (h : Layered lo rs hi) : rs.Pairwise Disjoint := by
  induction h with
  | nil _ => exact List.Pairwise.nil
  | cons hsub _ hrest ih =>
    refine List.Pairwise.cons (fun r hr ↦ ?_) ih
    rw [Set.disjoint_left]
    intro x hx hx'
    exact absurd (hsub hx).2 (not_lt.mpr (hrest.bounds.2 r hr hx').1)

end NoOsKernel.Lib
