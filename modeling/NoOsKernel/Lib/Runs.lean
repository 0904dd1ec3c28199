import Mathlib.Tactic.Common

/-!
# Runs of a transition function

A system is a step function on states, driven by actions. `Run step ok s t` says that `t` is reached
from `s` by a finite sequence of actions, each of which meets the condition `ok` in the state it is
taken in. `Run.invariant` is the induction rule: what every admitted step preserves holds in every
state reached.

Where the steps also return a value, an abstract machine `Explains` a sequence of actions and
results; `Explains.of_simulation` lifts a simulation of single steps to whole sequences.

A `History` keeps all the states of a run, the last one first. `Since` looks back in it: something
was the case once, and something else ever since.
-/

set_option autoImplicit false
set_option relaxedAutoImplicit false

namespace NoOsKernel.Lib

variable {σ α : Type*}

/-- `t` is reached from `s` by actions that meet `ok` when they are taken. -/
inductive Run (step : σ → α → σ) (ok : σ → α → Prop) (s : σ) : σ → Prop
  | refl : Run step ok s s
  | snoc {t : σ} (a : α) : Run step ok s t → ok t a → Run step ok s (step t a)

variable {step : σ → α → σ} {ok : σ → α → Prop} {s t : σ}

/-- A property of the first state that every admitted step preserves holds in every state
reached. -/
theorem Run.invariant (Inv : σ → Prop) (hrun : Run step ok s t) (hinit : Inv s)
    (hstep : ∀ u a, Inv u → ok u a → Inv (step u a)) : Inv t := by
  induction hrun with
  | refl => exact hinit
  | snoc a _ hok ih => exact hstep _ a ih hok

/-- A run that goes anywhere starts with an admitted action. -/
theorem Run.eq_or_start (hrun : Run step ok s t) : t = s ∨ ∃ a, ok s a := by
  induction hrun with
  | refl => exact Or.inl rfl
  | snoc a _ hok ih =>
    rcases ih with heq | hstart
    · exact Or.inr ⟨a, heq ▸ hok⟩
    · exact Or.inr hstart

/-- Every action of a list meets the condition in the state it is taken in. -/
def Admits (step : σ → α → σ) (ok : σ → α → Prop) : σ → List α → Prop
  | _, [] => True
  | s, a :: as => ok s a ∧ Admits step ok (step s a) as

instance Admits.decidable [∀ s a, Decidable (ok s a)] :
    (s : σ) → (as : List α) → Decidable (Admits step ok s as)
  | _, [] => isTrue trivial
  | s, a :: as =>
    have := Admits.decidable (step s a) as
    inferInstanceAs (Decidable (ok s a ∧ Admits step ok (step s a) as))

/-- A list of admitted actions is a run. -/
theorem Run.of_admits (hrun : Run step ok s t) (as : List α) (has : Admits step ok t as) :
    Run step ok s (as.foldl step t) := by
  induction as generalizing t with
  | nil => exact hrun
  | cons a as ih => exact ih (hrun.snoc a has.1) has.2

/-! ### Machines with results -/

section Results

variable {β τ : Type*}

/-- The results of a sequence of actions, and the state it ends in. -/
def results (step : σ → α → β × σ) : σ → List α → List β × σ
  | s, [] => ([], s)
  | s, a :: as =>
    let rest := results step (step s a).2 as
    ((step s a).1 :: rest.1, rest.2)

/-- An abstract machine can take the actions with the given results. -/
inductive Explains (astep : τ → α → β → τ → Prop) : τ → List α → List β → τ → Prop
  | nil (t : τ) : Explains astep t [] [] t
  | cons {t t' t'' : τ} {a : α} {as : List α} {b : β} {bs : List β} :
    astep t a b t' → Explains astep t' as bs t'' → Explains astep t (a :: as) (b :: bs) t''

/-- A simulation of the steps explains every sequence of actions. -/
theorem Explains.of_simulation {step : σ → α → β × σ} {astep : τ → α → β → τ → Prop}
    (R : σ → τ → Prop)
    (hstep : ∀ s t a, R s t → ∃ t', astep t a (step s a).1 t' ∧ R (step s a).2 t')
    {s : σ} {t : τ} (as : List α) (hrel : R s t) :
    ∃ t', Explains astep t as (results step s as).1 t' ∧ R (results step s as).2 t' := by
  induction as generalizing s t with
  | nil => exact ⟨t, Explains.nil t, hrel⟩
  | cons a as ih =>
    obtain ⟨u, hfirst, hrel'⟩ := hstep s t a hrel
    obtain ⟨t', hrest, hend⟩ := ih hrel'
    exact ⟨t', Explains.cons hfirst hrest, hend⟩

end Results

/-! ### Histories -/

section Histories

/-- The states of a run from `s` on, the last one first. -/
inductive History (next : σ → σ → Prop) (s : σ) : List σ → Prop
  | start : History next s [s]
  | step {t u : σ} {past : List σ} : History next s (t :: past) → next t u →
    History next s (u :: t :: past)

/-- In some state of the history `was` held, and in all later ones `kept`. -/
inductive Since (was kept : σ → Prop) : List σ → Prop
  | now {t : σ} {past : List σ} : was t → Since was kept (t :: past)
  | later {t : σ} {past : List σ} : kept t → Since was kept past → Since was kept (t :: past)

variable {next : σ → σ → Prop} {P : List σ → Prop} {h : List σ}

/-- A property of the first state alone that every step preserves holds of every history. -/
theorem History.invariant (hrun : History next s h) (hinit : P [s])
    (hstep : ∀ t u past, P (t :: past) → next t u → P (u :: t :: past)) : P h := by
  induction hrun with
  | start => exact hinit
  | step _ hnext ih => exact hstep _ _ _ ih hnext

end Histories

end NoOsKernel.Lib
