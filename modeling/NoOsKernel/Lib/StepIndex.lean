import Mathlib.Order.Basic

/-!
# Safety by counting steps

A state of a transition system is safe when every state its steps can reach is `ok`. `SafeFor n`
looks at the first `n` steps only. It is the form in which cyclic control flow is proved safe: what
lies behind a jump back needs to be safe for one step less.
-/

set_option autoImplicit false
set_option relaxedAutoImplicit false

namespace NoOsKernel.Lib

variable {σ : Type*} {ok : σ → Prop} {next : σ → σ → Prop} {n : ℕ} {s t : σ}

/-- All states within `n` steps are `ok`. -/
def SafeFor (ok : σ → Prop) (next : σ → σ → Prop) : ℕ → σ → Prop
  | 0, _ => True
  | n + 1, s => ok s ∧ ∀ t, next s t → SafeFor ok next n t

/-- All states that steps can reach are `ok`. -/
def Safe (ok : σ → Prop) (next : σ → σ → Prop) (s : σ) : Prop := ∀ n, SafeFor ok next n s

theorem SafeFor.of_succ (h : SafeFor ok next (n + 1) s) : SafeFor ok next n s := by
  induction n generalizing s with
  | zero => exact trivial
  | succ n ih => exact ⟨h.1, fun t ht ↦ ih (h.2 t ht)⟩

/-- Safety goes over to what a safe state simulates. -/
theorem SafeFor.of_simulation {ok' : σ → Prop} {R : σ → σ → Prop}
    (hok : ∀ s t, R s t → ok s → ok' t)
    (hnext : ∀ s t t', R s t → next t t' → ∃ s', next s s' ∧ R s' t')
    (hst : R s t) (h : SafeFor ok next n s) : SafeFor ok' next n t := by
  induction n generalizing s t with
  | zero => exact trivial
  | succ n ih =>
    refine ⟨hok s t hst h.1, fun t' ht' ↦ ?_⟩
    obtain ⟨s', hs', hst'⟩ := hnext s t t' hst ht'
    exact ih hst' (h.2 s' hs')

theorem Safe.now (h : Safe ok next s) : ok s := (h 1).1

theorem Safe.after (h : Safe ok next s) (ht : next s t) : Safe ok next t :=
  fun n ↦ (h (n + 1)).2 t ht

end NoOsKernel.Lib
