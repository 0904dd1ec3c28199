import NoOsKernel.Trans.Effects

/-!
# Transposed matrices

Going back through a linear map multiplies the gradients by the transposed matrix of the forward pass.
`weightAt` says which weight the forward pass multiplies input `k` by for output `j`, and `Adjoint`
that the accumulators of the backward pass use the same ones. All do, except for `Wd`: its rows have
length `D` in the forward pass, and the backward pass takes the row of an output instead of the row of
an input.
-/

set_option autoImplicit false
set_option relaxedAutoImplicit false

namespace NoOsKernel.Trans

open Lib Lib.Prog

/-! ### The matrices of the forward pass -/

/-- The linear maps of the model. -/
inductive LinMap
  | wq (l : ℕ)
  | wk (l : ℕ)
  | wv (l : ℕ)
  | wo (l : ℕ)
  | wu (l : ℕ)
  | wd (l : ℕ)
  | head
  deriving DecidableEq

/-- Where the weight lies that the forward pass multiplies input `k` by for output `j`. -/
def weightAt (c : TransCfg) : LinMap → ℕ → ℕ → ℕ
  | .wq l, k, j => layOff c l + (k * c.dModel.toNat + j)
  | .wk l, k, j => layOff c l + oWk c + (k * c.dModel.toNat + j)
  | .wv l, k, j => layOff c l + oWv c + (k * c.dModel.toNat + j)
  | .wo l, k, j => layOff c l + oWo c + (k * c.dModel.toNat + j)
  | .wu l, k, j => layOff c l + oWup c + (k * c.dFf.toNat + j)
  | .wd l, k, j => layOff c l + oWdn c + (k * c.dModel.toNat + j)
  | .head, k, j => oHead c + (k * transVocab + j)

variable {c : TransCfg} {C : ℕ} {x : Inputs}

theorem project_eq (l lay : ℕ) : project (dims c C) x (layOff c l) lay =
    loop C fun t ↦ loop c.dModel.toNat fun j ↦ (do
      let a ← dot x c.dModel.toNat (weightAt c (.wq l) · j) .scr (t * c.dModel.toNat)
      write .fwdLay (lay + (t * c.dModel.toNat + j)) (toI16 (a >>> 8))
      let a ← dot x c.dModel.toNat (weightAt c (.wk l) · j) .scr (t * c.dModel.toNat)
      write .fwdLay (lay + ((dims c C).offK + (t * c.dModel.toNat + j))) (toI16 (a >>> 8))
      let a ← dot x c.dModel.toNat (weightAt c (.wv l) · j) .scr (t * c.dModel.toNat)
      write .fwdLay (lay + ((dims c C).offV + (t * c.dModel.toNat + j))) (toI16 (a >>> 8))) :=
  rfl

theorem outProject_eq (l lay h h1 : ℕ) : outProject (dims c C) x (layOff c l) lay h h1 =
    loop C fun t ↦ loop c.dModel.toNat fun j ↦ (do
      let acc ← dot x c.dModel.toNat (weightAt c (.wo l) · j) .fwdLay
        (lay + ((dims c C).offA + t * c.dModel.toNat))
      let r ← read .h0 (h + (t * c.dModel.toNat + j))
      write .h0 (h1 + (t * c.dModel.toNat + j)) (clamp16 (acc >>> 8 + r))) :=
  rfl

theorem feedForward_eq (l h1 t : ℕ) :
    feedForward (dims c C) x (layOff c l + oLn1b c + c.dModel.toNat)
      (layOff c l + oLn1b c + c.dModel.toNat + c.dModel.toNat * c.dFf.toNat) l h1 t = (do
    loop c.dFf.toNat fun j ↦ do
      let a ← dot x c.dModel.toNat (weightAt c (.wu l) · j) .scr (t * c.dModel.toNat)
      let a := a >>> 8
      let a := if 2047 < a then 2047 else if a < -2048 then -2048 else a
      write .gup j (toI16 (geluTab (a + 2048).toNat >>> 4))
    stashWords x c.dFf.toNat .gact (l * (C * c.dFf.toNat) + t * c.dFf.toNat) .gup 0
    loop c.dModel.toNat fun j ↦ do
      let a ← dot x c.dFf.toNat (weightAt c (.wd l) · j) .gup 0
      let r ← read .h0 (h1 + (t * c.dModel.toNat + j))
      write .h0 (h1 + (t * c.dModel.toNat + j)) (clamp16 (a >>> 8 + r))) := by
  have hup : layOff c l + oLn1b c + c.dModel.toNat = layOff c l + oWup c := Nat.add_assoc ..
  have hdn : layOff c l + oWup c + c.dModel.toNat * c.dFf.toNat = layOff c l + oWdn c :=
    Nat.add_assoc ..
  rw [hup, hdn]
  rfl

theorem outputHead_eq : outputHead c (dims c C) x = (do
    let fin := c.nLayers.toNat * (C * c.dModel.toNat)
    stashWords x (C * c.dModel.toNat) .yf (c.nLayers.toNat * (C * c.dModel.toNat)) .h0 fin
    loop C fun t ↦ layernorm .h0 (fin + t * c.dModel.toNat) c.dModel.toNat
      (fun i ↦ x.w (oFinlnG c + i)) (fun i ↦ x.w (oFinlnB c + i))
    loop C fun t ↦ loop transVocab fun j ↦ do
      let a ← dot x c.dModel.toNat (weightAt c .head · j) .h0 (fin + t * c.dModel.toNat)
      write .logits (t * transVocab + j) (clamp16 (a >>> 8))) :=
  rfl

/-! ### The accumulators of the backward pass -/

/-- Every accumulator holds the sum of the gradients of the outputs, each times the weight by which
the forward pass takes the input into that output. -/
structure Adjoint (c : TransCfg) (x : Inputs) : Prop where
  head : ∀ C t k m, t < C → k < c.dModel.toNat → Typed m →
    (headBack c x t k m).result = ∑ j ∈ Finset.range transVocab,
      x.w (weightAt c .head k j) * m (.inr .dlogits) (t * transVocab + j)
  wd : ∀ C l t k m, l < c.nLayers.toNat → t < C → k < c.dFf.toNat → Typed m →
    (wdBack c (dims c C) x l t k m).result = ∑ j ∈ Finset.range c.dModel.toNat,
      x.w (weightAt c (.wd l) k j) *
        m (.inr .dhy) ((l + 1) * (C * c.dModel.toNat) + t * c.dModel.toNat + j)
  wu : ∀ C l t k m, l < c.nLayers.toNat → t < C → k < c.dModel.toNat → Typed m →
    (wuBack c (dims c C) x l t k m).result = ∑ j ∈ Finset.range c.dFf.toNat,
      x.w (weightAt c (.wu l) k j) *
        m (.inl .gact) (l * (C * c.dFf.toNat) + t * c.dFf.toNat + j)
  wo : ∀ C l t k m, l < c.nLayers.toNat → t < C → k < c.dModel.toNat → Typed m →
    (woBack c (dims c C) x l t k m).result = ∑ j ∈ Finset.range c.dModel.toNat,
      x.w (weightAt c (.wo l) k j) *
        m (.inr .dhy) ((l + 1) * (C * c.dModel.toNat) + t * c.dModel.toNat + j)
  qkv : ∀ C l t k m, l < c.nLayers.toNat → t < C → k < c.dModel.toNat → Typed m →
    (qkvBack c (dims c C) x l t k m).result = ∑ j ∈ Finset.range c.dModel.toNat,
      (x.w (weightAt c (.wq l) k j) *
          m (.inr .bwdLay) (l * laybufWords c + (t * c.dModel.toNat + j)) +
        x.w (weightAt c (.wk l) k j) *
          m (.inr .bwdLay) (l * laybufWords c + ((dims c C).offK + (t * c.dModel.toNat + j))) +
        x.w (weightAt c (.wv l) k j) *
          m (.inr .bwdLay) (l * laybufWords c + ((dims c C).offV + (t * c.dModel.toNat + j))))

theorem qkvBack_result (l t k : ℕ) (m : Words TrainBuf ℤ) :
    (qkvBack c (dims c C) x l t k m).result = ∑ j ∈ Finset.range c.dModel.toNat,
      (x.w (weightAt c (.wq l) k j) *
          m (.inr .bwdLay) (l * laybufWords c + (t * c.dModel.toNat + j)) +
        x.w (weightAt c (.wk l) k j) *
          m (.inr .bwdLay) (l * laybufWords c + ((dims c C).offK + (t * c.dModel.toNat + j))) +
        x.w (weightAt c (.wv l) k j) *
          m (.inr .bwdLay) (l * laybufWords c + ((dims c C).offV + (t * c.dModel.toNat + j)))) :=
  (fold_sum (m := m) _ fun _ _ _ ↦ ⟨rfl, rfl⟩).2.trans (zero_add _)

/-- The accumulator for `Wd` takes the row of the output. -/
theorem wdBack_result (l t k : ℕ) (m : Words TrainBuf ℤ) :
    (wdBack c (dims c C) x l t k m).result = ∑ j ∈ Finset.range c.dModel.toNat,
      x.w (weightAt c (.wd l) j k) *
        m (.inr .dhy) ((l + 1) * (C * c.dModel.toNat) + t * c.dModel.toNat + j) :=
  (backDot_reads ..).2

/-- The gradients with a single one at index `i` of `dhy`. -/
def unitWords (i : ℕ) : Words TrainBuf ℤ := fun b x ↦ if b = .inr .dhy ∧ x = i then 1 else 0

theorem typed_unitWords (i : ℕ) : Typed (unitWords i) := by
  intro b x
  unfold unitWords
  split_ifs with hb
  · rw [hb.1]
    exact ⟨by decide, by decide⟩
  · exact ⟨neg_nonpos.mpr (by positivity), by positivity⟩

theorem sum_unitWords {n off j : ℕ} (hj : j < n) (w : ℕ → ℤ) :
    ∑ i ∈ Finset.range n, w i * unitWords (off + j) (.inr .dhy) (off + i) = w j := by
  rw [Finset.sum_eq_single_of_mem j (Finset.mem_range.mpr hj)]
  · rw [unitWords, if_pos ⟨rfl, rfl⟩, mul_one]
  · intro i _ hne
    rw [unitWords, if_neg fun h ↦ hne (Nat.add_left_cancel h.2), mul_zero]

/-- A weight of `Wd` and its mirror image have to agree. -/
theorem Adjoint.wd_symm (h : Adjoint c x) {l k j : ℕ} (hl : l < c.nLayers.toNat)
    (hk : k < c.dFf.toNat) (hj : j < c.dModel.toNat) :
    x.w (weightAt c (.wd l) k j) = x.w (weightAt c (.wd l) j k) := by
  have hwd := h.wd 1 l 0 k
    (unitWords ((l + 1) * (1 * c.dModel.toNat) + 0 * c.dModel.toNat + j)) hl Nat.zero_lt_one hk
    (typed_unitWords _)
  rw [wdBack_result, sum_unitWords hj fun i ↦ x.w (weightAt c (.wd l) i k),
    sum_unitWords hj fun i ↦ x.w (weightAt c (.wd l) k i)] at hwd
  exact hwd.symm

/-- The backward pass uses the transposed matrices exactly when no mirror image in `Wd` differs from
its weight. -/
theorem adjoint_iff (c : TransCfg) (x : Inputs) :
    Adjoint c x ↔ ∀ l < c.nLayers.toNat, ∀ k < c.dFf.toNat, ∀ j < c.dModel.toNat,
      x.w (layOff c l + oWdn c + (k * c.dModel.toNat + j)) =
        x.w (layOff c l + oWdn c + (j * c.dModel.toNat + k)) := by
  constructor
  · intro h l hl k hk j hj
    exact h.wd_symm hl hk hj
  · intro hsymm
    refine ⟨?_, ?_, ?_, ?_, ?_⟩
    · exact fun C t k m _ _ _ ↦ (backDot_reads ..).2
    · intro C l t k m hl _ hk _
      rw [wdBack_result]
      refine Finset.sum_congr rfl fun j hj ↦ ?_
      exact congrArg (· * _) (hsymm l hl k hk j (Finset.mem_range.mp hj)).symm
    · exact fun C l t k m _ _ _ _ ↦ (backDot_reads ..).2
    · exact fun C l t k m _ _ _ _ ↦ (backDot_reads ..).2
    · exact fun C l t k m _ _ _ _ ↦ qkvBack_result l t k m

/-- Weights in which only the second weight of the first `Wd` is set. -/
def secondWdWeight : Inputs where
  w i := if i = layOff specCfg 0 + oWdn specCfg + 1 then 1 else 0
  toks _ := 0
  stash := true

theorem not_adjoint_secondWdWeight : ¬ Adjoint specCfg secondWdWeight := by
  intro h
  have hsymm := h.wd_symm (l := 0) (k := 0) (j := 1) (by decide) (by decide) (by decide)
  revert hsymm
  decide

end NoOsKernel.Trans
