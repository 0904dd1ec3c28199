import NoOsKernel.Trans.Session

/-!
# Where `degrade` ends

The loop of `degrade` in `kernel/noc/trans.c` halves one dimension a round. It ends for every
configuration, because the width becomes smaller or else one of the other dimensions does
(`shrink_decreases`): halving the width makes the feed-forward block larger again, but never the
width. It ends with a configuration that fits, or at the floor, where nothing is left to halve.
-/

set_option autoImplicit false
set_option relaxedAutoImplicit false

namespace NoOsKernel.Trans

open Relation

/-- One round of `degrade` that does not end it. -/
def DegradeStep (b : Budgets) (c c' : TransCfg) : Prop := ¬ fits b c ∧ shrink c = some c'

/-- Nothing is left to halve. -/
structure AtFloor (c : TransCfg) : Prop where
  ctx : c.ctx.toNat ≤ transCtxMin
  ff : c.dFf.toNat ≤ c.dModel.toNat
  layers : c.nLayers.toNat ≤ transLayersMin
  model : c.dModel.toNat ≤ transDMin

/-- Context, layers and width of `c'` are at most those of `c`. -/
structure NoLarger (c' c : TransCfg) : Prop where
  ctx : c'.ctx.toNat ≤ c.ctx.toNat
  layers : c'.nLayers.toNat ≤ c.nLayers.toNat
  model : c'.dModel.toNat ≤ c.dModel.toNat

section Round

variable {b : Budgets} {c c' : TransCfg}

theorem atFloor_of_shrink (hshrink : shrink c = none) : AtFloor c := by
  unfold shrink at hshrink
  split_ifs at hshrink with hctx hff hlayers hmodel
  exact ⟨Nat.not_lt.mp hctx, Nat.not_lt.mp hff, Nat.not_lt.mp hlayers, Nat.not_lt.mp hmodel⟩

theorem noLarger_of_shrink (hshrink : shrink c = some c') : NoLarger c' c := by
  have hhalf (x : UInt16) : (x / 2).toNat ≤ x.toNat := by
    rw [toNat_half]
    exact Nat.div_le_self _ _
  unfold shrink at hshrink
  split_ifs at hshrink
  · cases hshrink
    exact ⟨hhalf _, le_refl _, le_refl _⟩
  · cases hshrink
    exact ⟨le_refl _, le_refl _, le_refl _⟩
  · cases hshrink
    exact ⟨le_refl _, hhalf _, le_refl _⟩
  · cases hshrink
    exact ⟨le_refl _, le_refl _, hhalf _⟩

/-- What a round makes smaller, in the order in which it counts. -/
def degradeMeasure (c : TransCfg) : ℕ ×ₗ ℕ :=
  toLex (c.dModel.toNat, c.ctx.toNat + c.dFf.toNat + c.nLayers.toNat)

theorem DegradeStep.measure (h : DegradeStep b c c') : degradeMeasure c' < degradeMeasure c := by
  refine Prod.Lex.toLex_lt_toLex.mpr ?_
  obtain hmodel | ⟨hsame, hless⟩ := shrink_decreases h.2
  · exact Or.inl hmodel
  · exact Or.inr ⟨congrArg UInt16.toNat hsame, hless⟩

theorem wellFounded_degradeStep (b : Budgets) :
    WellFounded fun c' c : TransCfg ↦ DegradeStep b c c' :=
  Subrelation.wf (fun h ↦ h.measure) (InvImage.wf degradeMeasure wellFounded_lt)

end Round

/-- The rounds lead to what `degrade` returns. -/
theorem degradeStep_degrade (b : Budgets) (c : TransCfg) :
    ReflTransGen (DegradeStep b) c (degrade b c).2 := by
  fun_induction degrade b c with
  | case1 c hfits => exact .refl
  | case2 c hfits c' hshrink ih => exact ih.head ⟨hfits, hshrink⟩
  | case3 c hfits hnone => exact .refl

theorem fits_of_degrade {b : Budgets} {c : TransCfg} (htrue : (degrade b c).1 = true) :
    fits b (degrade b c).2 := by
  fun_induction degrade b c with
  | case1 c hfits => exact hfits
  | case2 c hfits c' hshrink ih => exact ih htrue
  | case3 c hfits hnone => cases htrue

theorem atFloor_of_degrade {b : Budgets} {c : TransCfg} (hfalse : (degrade b c).1 = false) :
    ¬ fits b (degrade b c).2 ∧ AtFloor (degrade b c).2 := by
  fun_induction degrade b c with
  | case1 c hfits => cases hfalse
  | case2 c hfits c' hshrink ih => exact ih hfalse
  | case3 c hfits hnone => exact ⟨hfits, atFloor_of_shrink hnone⟩

/-- The loop of `degrade` ends, with a configuration that fits both budgets or with one at the floor
that does not, and on the way context, layers and width never grow. -/
theorem degrade_ends_fitting_or_at_floor (b : Budgets) (c : TransCfg) :
    (¬ ∃ way : ℕ → TransCfg, way 0 = c ∧ ∀ n, DegradeStep b (way n) (way (n + 1))) ∧
      ReflTransGen (DegradeStep b) c (degrade b c).2 ∧
      ((degrade b c).1 = true → workingKb (degrade b c).2 ≤ transActivCapKb b ∧
        weightsBytesOf (degrade b c).2 / 1024 ≤ b.wbudgetKb) ∧
      ((degrade b c).1 = false → ¬ fits b (degrade b c).2 ∧ AtFloor (degrade b c).2) ∧
      ∀ c₁ c₂, ReflTransGen (DegradeStep b) c c₁ → DegradeStep b c₁ c₂ → NoLarger c₂ c₁ := by
  refine ⟨?_, degradeStep_degrade b c, fits_of_degrade, atFloor_of_degrade,
    fun c₁ c₂ _ hstep ↦ noLarger_of_shrink hstep.2⟩
  rintro ⟨way, -, hway⟩
  exact (wellFounded_iff_isEmpty_descending_chain.mp (wellFounded_degradeStep b)).false
    ⟨way, hway⟩

end NoOsKernel.Trans
