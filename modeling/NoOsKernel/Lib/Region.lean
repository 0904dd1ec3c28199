import Mathlib.Tactic.Common

/-!
# Runs through a region

A machine takes steps until one fails. `Through step In s t` says that it runs from `s` inside the
region `In`, and that `t` is the first state outside. The machine is deterministic, so it leaves a
region in one state at most. `Through.split` cuts a run at the place where it leaves a smaller
region: code made of parts is run part by part.
-/

set_option autoImplicit false
set_option relaxedAutoImplicit false

namespace NoOsKernel.Lib

variable {σ ε : Type*} {step : σ → Except ε σ} {In In' : σ → Prop} {s s' t t' : σ}

/-- The machine runs from `s` inside a region, and leaves it in `t`. -/
inductive Through (step : σ → Except ε σ) (In : σ → Prop) : σ → σ → Prop
  | leave {t : σ} (hout : ¬ In t) : Through step In t t
  | head {s s' t : σ} (hin : In s) (hstep : step s = .ok s') (hrest : Through step In s' t) :
    Through step In s t

namespace Through

theorem outside (h : Through step In s t) : ¬ In t := by
  induction h with
  | leave hout => exact hout
  | head _ _ _ ih => exact ih

/-- A run that starts outside goes nowhere. -/
theorem eq_of_outside (h : Through step In s t) (hout : ¬ In s) : s = t := by
  cases h with
  | leave _ => rfl
  | head hin _ _ => exact absurd hin hout

/-- The first step of a run that starts inside. -/
theorem first (h : Through step In s t) (hin : In s) :
    ∃ s', step s = .ok s' ∧ Through step In s' t := by
  cases h with
  | leave hout => exact absurd hin hout
  | head _ hstep hrest => exact ⟨_, hstep, hrest⟩

theorem unique (h : Through step In s t) (h' : Through step In s t') : t = t' := by
  induction h with
  | leave hout => exact h'.eq_of_outside hout
  | head hin hstep _ ih =>
    obtain ⟨u, hu, hrest⟩ := h'.first hin
    obtain rfl := Except.ok.inj (hstep.symm.trans hu)
    exact ih hrest

/-- A run leaves every smaller region. -/
theorem split (h : Through step In s t) (hsub : ∀ u, In' u → In u) :
    ∃ u, Through step In' s u ∧ Through step In u t := by
  induction h with
  | leave hout => exact ⟨_, .leave fun hin ↦ hout (hsub _ hin), .leave hout⟩
  | @head s s' t hin hstep hrest ih =>
    by_cases hin' : In' s
    · obtain ⟨u, hfirst, hsecond⟩ := ih
      exact ⟨u, .head hin' hstep hfirst, hsecond⟩
    · exact ⟨s, .leave hin', .head hin hstep hrest⟩

end Through

end NoOsKernel.Lib
