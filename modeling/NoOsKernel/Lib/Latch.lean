import Mathlib.Tactic.Common

/-!
# Switches that events set and clear

`latch effect b es` is a switch that starts at `b`, after events each of which may set it, clear it
or leave it alone. It is off in the end when every event that sets it has one behind it that clears
it (`latch_eq_false_iff`). `Answered p r es` says that of any kind of event and of answer.
-/

set_option autoImplicit false
set_option relaxedAutoImplicit false

namespace NoOsKernel.Lib

variable {α : Type*}

/-- The switch after some events. -/
def latch (effect : α → Option Bool) (b : Bool) (es : List α) : Bool :=
  es.foldl (fun b e ↦ (effect e).getD b) b

/-- Behind every event that meets `p` there is one that answers it. -/
def Answered (p : α → Prop) (r : α → α → Prop) : List α → Prop
  | [] => True
  | e :: es => (p e → ∃ e' ∈ es, r e e') ∧ Answered p r es

instance Answered.decidable (p : α → Prop) (r : α → α → Prop) [DecidablePred p] [DecidableRel r] :
    (es : List α) → Decidable (Answered p r es)
  | [] => isTrue trivial
  | e :: es =>
    have := Answered.decidable p r es
    inferInstanceAs (Decidable ((p e → ∃ e' ∈ es, r e e') ∧ Answered p r es))

variable {effect : α → Option Bool}

theorem Answered.mono {p p' : α → Prop} {r r' : α → α → Prop} (hp : ∀ e, p' e → p e)
    (hr : ∀ e e', p' e → r e e' → r' e e') {es : List α} (h : Answered p r es) :
    Answered p' r' es := by
  induction es with
  | nil => exact trivial
  | cons e es ih =>
    refine ⟨fun he ↦ ?_, ih h.2⟩
    obtain ⟨e', hmem, hanswer⟩ := h.1 (hp e he)
    exact ⟨e', hmem, hr e e' he hanswer⟩

/-- The switch is off in the end when everything that sets it is answered by something that clears
it. -/
theorem latch_eq_false_iff (b : Bool) (es : List α) :
    latch effect b es = false ↔ (b = true → ∃ e ∈ es, effect e = some false) ∧
      Answered (fun e ↦ effect e = some true) (fun _ e' ↦ effect e' = some false) es := by
  induction es generalizing b with
  | nil =>
    cases b with
    | false => exact iff_of_true rfl ⟨nofun, trivial⟩
    | true => exact iff_of_false nofun fun h ↦ absurd (h.1 rfl) (by simp)
  | cons e es ih =>
    have hstep : latch effect b (e :: es) = latch effect ((effect e).getD b) es := rfl
    rw [hstep, ih, Answered]
    rcases heffect : effect e with - | ⟨- | -⟩
    · simp [heffect]
    · simp [heffect]
    · simp only [heffect, Option.getD_some, forall_const, List.mem_cons, exists_eq_or_imp,
        Option.some.injEq, Bool.true_eq_false, false_or]
      constructor
      · rintro ⟨hcleared, hanswered⟩
        exact ⟨fun _ ↦ hcleared, hcleared, hanswered⟩
      · rintro ⟨-, hboth⟩
        exact hboth

end NoOsKernel.Lib
