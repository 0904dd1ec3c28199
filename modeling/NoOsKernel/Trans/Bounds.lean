import NoOsKernel.Trans.Session

/-!
# Bounds of the configuration over whole sessions

Width, heads, feed-forward width and layers keep their bounds under every sequence of
`trans_config` and `trans_set_act_cap`, and the blob always has the size and the header of the live
configuration. The context keeps its lower bound as long as no call reaches a `LateHalf`.
-/

set_option autoImplicit false
set_option relaxedAutoImplicit false

namespace NoOsKernel.Trans

open Lib

/-! ### The shape of a configuration -/

/-- The bounds that every halving and every growth move keeps. The width is a power of two, so that
the eight heads always divide it. -/
structure ShapeOk (c : TransCfg) : Prop where
  width : ∃ k, 4 ≤ k ∧ k ≤ 10 ∧ c.dModel.toNat = 2 ^ k
  heads : c.nHeads = 8
  ff : 1 ≤ c.dFf.toNat
  layersMin : transLayersMin ≤ c.nLayers.toNat
  layersMax : c.nLayers.toNat ≤ transLayersMax
  ctxMax : c.ctx.toNat ≤ transCtxMax

theorem ShapeOk.width_min {c : TransCfg} (hc : ShapeOk c) : transDMin ≤ c.dModel.toNat := by
  obtain ⟨k, hk, -, hwidth⟩ := hc.width
  rw [hwidth]
  exact Nat.pow_le_pow_right (by decide : 0 < 2) hk

theorem ShapeOk.width_max {c : TransCfg} (hc : ShapeOk c) : c.dModel.toNat ≤ transDMax := by
  obtain ⟨k, -, hk, hwidth⟩ := hc.width
  rw [hwidth]
  exact Nat.pow_le_pow_right (by decide : 0 < 2) hk

theorem ShapeOk.heads_dvd {c : TransCfg} (hc : ShapeOk c) :
    c.nHeads.toNat ∣ c.dModel.toNat := by
  obtain ⟨k, hk, -, hwidth⟩ := hc.width
  rw [hc.heads, hwidth]
  exact pow_dvd_pow 2 (by omega : 3 ≤ k)

theorem shapeOk_specCfg : ShapeOk specCfg where
  width := ⟨6, by decide, by decide, by decide⟩
  heads := rfl
  ff := by decide
  layersMin := by decide
  layersMax := by decide
  ctxMax := by decide

/-- Halving the width keeps it a power of two. -/
theorem ShapeOk.half_width {c : TransCfg} (hc : ShapeOk c) (hmodel : transDMin < c.dModel.toNat) :
    ∃ k, 4 ≤ k ∧ k ≤ 10 ∧ (c.dModel / 2).toNat = 2 ^ k := by
  obtain ⟨k, hk, hk', hwidth⟩ := hc.width
  have hlarge : 4 ≠ k := by
    rintro rfl
    rw [hwidth] at hmodel
    exact absurd hmodel (by decide)
  refine ⟨k - 1, by omega, by omega, ?_⟩
  rw [toNat_half, hwidth, ← Nat.pow_div (by omega : 1 ≤ k) (by decide), Nat.pow_one]

theorem shapeOk_shrink {c c' : TransCfg} (hc : ShapeOk c) (hshrink : shrink c = some c') :
    ShapeOk c' := by
  have hwidth := hc.width_min
  have hmin := hc.layersMin
  have hmax := hc.layersMax
  have hctxMax := hc.ctxMax
  rw [transDMin] at hwidth
  unfold shrink at hshrink
  split_ifs at hshrink with hctx hff hlayers hmodel
  · cases hshrink
    exact { hc with ctxMax := by simp only [toNat_half]; omega }
  · cases hshrink
    exact { hc with ff := by simp only [toNat_half]; omega }
  · cases hshrink
    rw [transLayersMin] at hlayers
    exact { hc with
      layersMin := by simp only [toNat_half, transLayersMin]; omega
      layersMax := by simp only [toNat_half]; omega }
  · cases hshrink
    obtain ⟨k, hk, hk', hhalf⟩ := hc.half_width hmodel
    have height : 8 ≤ (c.dModel / 2).toNat := by
      rw [hhalf]
      exact Nat.pow_le_pow_right (by decide : 0 < 2) (by omega : 3 ≤ k)
    refine { hc with width := ⟨k, hk, hk', hhalf⟩, heads := if_pos height, ff := ?_ }
    have hbound : (c.dModel / 2).toNat ≤ 2 ^ 10 := by
      rw [hhalf]
      exact Nat.pow_le_pow_right (by decide) hk'
    change 1 ≤ (4 * (c.dModel / 2)).toNat
    rw [UInt16.toNat_mul]
    change 1 ≤ 4 * (c.dModel / 2).toNat % 2 ^ 16
    omega

theorem shapeOk_degrade {b : Budgets} {c : TransCfg} (hc : ShapeOk c) :
    ShapeOk (degrade b c).2 := by
  fun_induction degrade b c with
  | case1 c hfits => exact hc
  | case2 c hfits c' hshrink ih => exact ih (shapeOk_shrink hc hshrink)
  | case3 c hfits hnone => exact hc

/-! ### The context -/

/-- `c` with the context halved `j` times. -/
def halved (c : TransCfg) (j : ℕ) : TransCfg :=
  { c with ctx := UInt16.ofNat (c.ctx.toNat / 2 ^ j) }

/-- `degrade` halves a context of 17 to 31: one of the halvings of the context is in that range, and
neither it nor one before it fits. -/
def LateHalf (b : Budgets) (c : TransCfg) : Prop :=
  ∃ i, transCtxMin < c.ctx.toNat / 2 ^ i ∧ c.ctx.toNat / 2 ^ i < 2 * transCtxMin ∧
    ∀ j ≤ i, ¬ fits b (halved c j)

theorem halved_zero (c : TransCfg) : halved c 0 = c := by
  rw [halved, pow_zero, Nat.div_one, UInt16.ofNat_toNat]

theorem halved_half (c : TransCfg) (j : ℕ) :
    halved { c with ctx := c.ctx / 2 } j = halved c (j + 1) := by
  simp only [halved, toNat_half, Nat.div_div_eq_div_mul, pow_succ']

/-- While the context is above the minimum it is what `degrade` halves. -/
theorem shrink_of_ctx_lt {c : TransCfg} (hctx : transCtxMin < c.ctx.toNat) :
    shrink c = some { c with ctx := c.ctx / 2 } := if_pos hctx

/-- At the minimum the context stays. -/
theorem shrink_ctx_eq {c c' : TransCfg} (hctx : c.ctx.toNat ≤ transCtxMin)
    (hshrink : shrink c = some c') : c'.ctx = c.ctx := by
  unfold shrink at hshrink
  rw [if_neg (Nat.not_lt.mpr hctx)] at hshrink
  split_ifs at hshrink
  all_goals
    cases hshrink
    rfl

theorem lateHalf_half_iff {b : Budgets} {c : TransCfg} (hfits : ¬ fits b c)
    (hctx : 2 * transCtxMin ≤ c.ctx.toNat) :
    LateHalf b { c with ctx := c.ctx / 2 } ↔ LateHalf b c := by
  constructor
  · rintro ⟨i, hmin, hmax, hnone⟩
    simp only [toNat_half, Nat.div_div_eq_div_mul, ← pow_succ'] at hmin hmax
    refine ⟨i + 1, hmin, hmax, ?_⟩
    rintro (_ | j) hj
    · rwa [halved_zero]
    · rw [← halved_half]
      exact hnone j (by omega)
  · rintro ⟨_ | i, hmin, hmax, hnone⟩
    · rw [pow_zero, Nat.div_one] at hmax
      omega
    · refine ⟨i, ?_, ?_, fun j hj ↦ ?_⟩
      · simpa only [toNat_half, Nat.div_div_eq_div_mul, ← pow_succ'] using hmin
      · simpa only [toNat_half, Nat.div_div_eq_div_mul, ← pow_succ'] using hmax
      · rw [halved_half]
        exact hnone (j + 1) (by omega)

/-- A halving never makes the context longer. -/
theorem shrink_ctx_le {c c' : TransCfg} (hshrink : shrink c = some c') :
    c'.ctx.toNat ≤ c.ctx.toNat := by
  by_cases hctx : transCtxMin < c.ctx.toNat
  · rw [shrink_of_ctx_lt hctx] at hshrink
    cases hshrink
    rw [toNat_half]
    omega
  · rw [shrink_ctx_eq (by omega) hshrink]

theorem degrade_ctx_le (b : Budgets) (c : TransCfg) :
    (degrade b c).2.ctx.toNat ≤ c.ctx.toNat := by
  fun_induction degrade b c with
  | case1 c hfits => exact le_refl _
  | case2 c hfits c' hshrink ih => exact ih.trans (shrink_ctx_le hshrink)
  | case3 c hfits hnone => exact le_refl _

/-- At the minimum there is nothing to halve too late. -/
theorem not_lateHalf_of_le {b : Budgets} {c : TransCfg} (hctx : c.ctx.toNat ≤ transCtxMin) :
    ¬ LateHalf b c := by
  rintro ⟨i, hmin, -, -⟩
  have hle := Nat.div_le_self c.ctx.toNat (2 ^ i)
  omega

/-- `degrade` leaves the context below the minimum exactly when it halves one of 17 to 31. -/
theorem degrade_ctx_iff {b : Budgets} {c : TransCfg} (hctx : transCtxMin ≤ c.ctx.toNat) :
    transCtxMin ≤ (degrade b c).2.ctx.toNat ↔ ¬ LateHalf b c := by
  fun_induction degrade b c with
  | case1 c hfits =>
    refine iff_of_true hctx ?_
    rintro ⟨i, -, -, hnone⟩
    exact hnone 0 (Nat.zero_le i) (by rwa [halved_zero])
  | case2 c hfits c' hshrink ih =>
    by_cases hlong : transCtxMin < c.ctx.toNat
    · rw [shrink_of_ctx_lt hlong] at hshrink
      cases hshrink
      by_cases hlate : c.ctx.toNat < 2 * transCtxMin
      · -- the halving that goes below the minimum
        have hle := degrade_ctx_le b { c with ctx := c.ctx / 2 }
        simp only [toNat_half] at hle
        refine iff_of_false (by omega) (not_not.mpr ⟨0, ?_, ?_, ?_⟩)
        · rwa [pow_zero, Nat.div_one]
        · rwa [pow_zero, Nat.div_one]
        · intro j hj
          rwa [Nat.le_zero.mp hj, halved_zero]
      · rw [← lateHalf_half_iff hfits (by omega)]
        exact ih (by simp only [toNat_half]; omega)
    · have hsame := shrink_ctx_eq (by omega) hshrink
      rw [ih (by rwa [hsame])]
      exact iff_of_true (not_lateHalf_of_le (by rw [hsame]; omega)) (not_lateHalf_of_le (by omega))
  | case3 c hfits hnone =>
    have hshort : c.ctx.toNat ≤ transCtxMin := by
      by_contra hlong
      rw [shrink_of_ctx_lt (by omega)] at hnone
      cases hnone
    exact iff_of_true hctx (not_lateHalf_of_le hshort)

/-! ### Booting -/

/-- What the growth loop keeps: the shape, and a context that is a power of two. -/
structure Grown (c : TransCfg) : Prop where
  shape : ShapeOk c
  ctx : ∃ j, 4 ≤ j ∧ j ≤ 13 ∧ c.ctx.toNat = 2 ^ j

/-- A power of two never halves into 17 to 31. -/
theorem not_lateHalf_of_pow {b : Budgets} {c : TransCfg} {j : ℕ} (hctx : c.ctx.toNat = 2 ^ j) :
    ¬ LateHalf b c := by
  rintro ⟨i, hmin, hmax, -⟩
  rw [hctx] at hmin hmax
  obtain hle | hlt := le_or_gt i j
  · rw [Nat.pow_div hle (by decide)] at hmin hmax
    have hlow : 4 < j - i := (Nat.pow_lt_pow_iff_right (by decide : 1 < 2)).mp hmin
    have hhigh : j - i < 5 := (Nat.pow_lt_pow_iff_right (by decide : 1 < 2)).mp hmax
    omega
  · rw [Nat.div_eq_of_lt (Nat.pow_lt_pow_right (by decide) hlt)] at hmin
    exact absurd hmin (by decide)

theorem toNat_ofNat_of_lt {n : ℕ} (hn : n < 2 ^ 16) : (UInt16.ofNat n).toNat = n :=
  UInt16.toNat_ofNat_of_lt hn

theorem grown_growCtx {c : TransCfg} (hc : Grown c) : Grown (growCtx c) := by
  obtain ⟨j, hj, hj', hctx⟩ := hc.ctx
  have hmove : ∃ i, 4 ≤ i ∧ i ≤ 13 ∧ (growCtx c).ctx.toNat = 2 ^ i := by
    simp only [growCtx, hctx, ← pow_succ]
    split_ifs with hgrow
    · have hlt : j + 1 < 13 := (Nat.pow_lt_pow_iff_right (by decide : 1 < 2)).mp hgrow
      refine ⟨j + 1, by omega, by omega, toNat_ofNat_of_lt ?_⟩
      exact Nat.pow_lt_pow_right (by decide) (by omega)
    · exact ⟨13, by decide, by decide, by decide⟩
  refine ⟨{ hc.shape with ctxMax := ?_ }, hmove⟩
  obtain ⟨i, -, hi, heq⟩ := hmove
  rw [heq]
  exact Nat.pow_le_pow_right (by decide : 0 < 2) hi

theorem grown_growFf {c : TransCfg} (hc : Grown c) : Grown (growFf c) := by
  have hwidth := hc.shape.width_min
  have hwidth' := hc.shape.width_max
  have hff := hc.shape.ff
  rw [transDMin] at hwidth
  rw [transDMax] at hwidth'
  refine ⟨{ hc.shape with ff := ?_ }, hc.ctx⟩
  simp only [growFf]
  split_ifs with hgrow
  · rw [toNat_ofNat_of_lt (by omega)]
    omega
  · rw [toNat_ofNat_of_lt (by omega)]
    omega

theorem grown_growLayers {c : TransCfg} (hc : Grown c) : Grown (growLayers c) := by
  have hmin := hc.shape.layersMin
  have hlayers : transLayersMin ≤ (growLayers c).nLayers.toNat ∧
      (growLayers c).nLayers.toNat ≤ transLayersMax := by
    have hmax : transLayersMax = 32 := rfl
    simp only [growLayers]
    split_ifs with hgrow
    · rw [toNat_ofNat_of_lt (by omega)]
      omega
    · decide
  exact ⟨{ hc.shape with layersMin := hlayers.1, layersMax := hlayers.2 }, hc.ctx⟩

theorem grown_growModel {c : TransCfg} (hc : Grown c) : Grown (growModel c) := by
  obtain ⟨k, hk, hk', hwidth⟩ := hc.shape.width
  have hmove : ∃ i, 4 ≤ i ∧ i ≤ 10 ∧ (growModel c).dModel.toNat = 2 ^ i := by
    simp only [growModel, hwidth, ← pow_succ]
    split_ifs with hgrow
    · have hle : k + 1 ≤ 10 := (Nat.pow_le_pow_iff_right (by decide : 1 < 2)).mp hgrow
      refine ⟨k + 1, by omega, hle, toNat_ofNat_of_lt ?_⟩
      exact Nat.pow_lt_pow_right (by decide) (by omega)
    · exact ⟨10, by decide, by decide, by decide⟩
  obtain ⟨i, hi, hi', heq⟩ := hmove
  have hlow : 2 ^ 4 ≤ (growModel c).dModel.toNat := by
    rw [heq]
    exact Nat.pow_le_pow_right (by decide) hi
  have hhigh : (growModel c).dModel.toNat ≤ 2 ^ 10 := by
    rw [heq]
    exact Nat.pow_le_pow_right (by decide) hi'
  refine ⟨{ hc.shape with width := ⟨i, hi, hi', heq⟩, heads := ?_, ff := ?_ }, hc.ctx⟩
  · exact if_pos (by change 8 ≤ (growModel c).dModel.toNat; omega)
  · change 1 ≤ (UInt16.ofNat (4 * (growModel c).dModel.toNat)).toNat
    rw [toNat_ofNat_of_lt (by omega)]
    omega

theorem grown_autotuneIter {b : Budgets} {c : TransCfg} (hc : Grown c) :
    Grown (autotuneIter b c).1 := by
  unfold autotuneIter
  split_ifs
  · exact grown_growCtx hc
  · exact grown_growFf hc
  · exact grown_growLayers hc
  · exact grown_growModel hc
  · exact hc

theorem grown_autotune {b : Budgets} {fuel : ℕ} {c c' : TransCfg} (hc : Grown c)
    (htune : autotune b fuel c = some c') : Grown c' := by
  induction fuel generalizing c with
  | zero => cases htune
  | succ fuel ih =>
    rw [autotune] at htune
    have hnext := grown_autotuneIter (b := b) hc
    generalize autotuneIter b c = next at htune hnext
    obtain ⟨c₁, grown⟩ := next
    cases grown with
    | true => exact ih hnext htune
    | false =>
      cases htune
      exact hnext

theorem grown_specCfg : Grown specCfg := ⟨shapeOk_specCfg, 8, by decide, by decide, by decide⟩

/-! ### The blob -/

/-- The five dimensions in the header, little-endian behind the magic bytes. -/
structure HeaderEncodes (blob : Mem) (c : TransCfg) : Prop where
  magic : blob 0 = 0x4e ∧ blob 1 = 0x54 ∧ blob 2 = 0x52 ∧ blob 3 = 0x4e
  dModel : blob.load 2 4 = c.dModel.toNat
  nLayers : blob.load 2 6 = c.nLayers.toNat
  ctx : blob.load 2 8 = c.ctx.toNat
  dFf : blob.load 2 10 = c.dFf.toNat
  vocab : blob.load 2 12 = c.vocab.toNat

/-- Two bytes hold a dimension. -/
theorem load_two_of_bytes {blob : Mem} {k : ℕ} {v : UInt16}
    (hlo : blob k = BitVec.ofNat 8 v.toNat) (hhi : blob (k + 1) = BitVec.ofNat 8 (v.toNat / 256)) :
    blob.load 2 k = v.toNat := by
  have hv := v.toNat_lt
  have hload : blob.load 2 k = v.toNat % 256 ^ 2 := by
    apply Mem.load_eq_of_bytes
    intro j hj
    obtain rfl | rfl : j = 0 ∨ j = 1 := by omega
    · rw [Nat.add_zero, hlo, pow_zero, Nat.div_one]
    · rw [hhi, pow_one]
  rw [hload]
  exact Nat.mod_eq_of_lt hv

theorem headerEncodes_of_eq {blob : Mem} {c : TransCfg}
    (hblob : ∀ k < transHdr, blob k = (hdrBytes c).getD k 0) : HeaderEncodes blob c where
  magic := ⟨hblob 0 (by decide), hblob 1 (by decide), hblob 2 (by decide), hblob 3 (by decide)⟩
  dModel := load_two_of_bytes (hblob 4 (by decide)) (hblob 5 (by decide))
  nLayers := load_two_of_bytes (hblob 6 (by decide)) (hblob 7 (by decide))
  ctx := load_two_of_bytes (hblob 8 (by decide)) (hblob 9 (by decide))
  dFf := load_two_of_bytes (hblob 10 (by decide)) (hblob 11 (by decide))
  vocab := load_two_of_bytes (hblob 12 (by decide)) (hblob 13 (by decide))

/-- `w'` has the header bytes of `w`. -/
def SameHdr (w w' : Weights) : Prop := ∀ k < transHdr, w'.blob k = w.blob k

section Header

variable {w w' : Weights} {k : ℕ}

theorem SameHdr.put (hsame : SameHdr w w') (v : Byte) (hk : transHdr ≤ k) :
    SameHdr w (w'.put k v) :=
  fun j hj ↦ (Function.update_of_ne (by omega) _ _).trans (hsame j hj)

theorem SameHdr.putRnd (hsame : SameHdr w w') (hk : transHdr ≤ k) : SameHdr w (w'.putRnd k) :=
  fun j hj ↦ (Function.update_of_ne (by omega) _ _).trans (hsame j hj)

theorem SameHdr.loop (hsame : SameHdr w w') {n : ℕ} {body : ℕ → Weights → Weights}
    (hbody : ∀ i w', SameHdr w w' → SameHdr w (body i w')) : SameHdr w (w'.loop n body) := by
  unfold Weights.loop
  induction List.range n generalizing w' with
  | nil => exact hsame
  | cons i is ih => exact ih (hbody i w' hsame)

end Header

theorem transHdr_le_layOff (c : TransCfg) (l : ℕ) : transHdr ≤ layOff c l := by
  unfold layOff
  omega

theorem transHdr_le_oFinlnG (c : TransCfg) : transHdr ≤ oFinlnG c := by
  unfold oFinlnG
  omega

/-- `weights_rndinit` writes behind the header. -/
theorem sameHdr_weightsRndinit (c : TransCfg) (w : Weights) : SameHdr w (weightsRndinit c w) := by
  have hlay := transHdr_le_layOff c
  have hfin := transHdr_le_oFinlnG c
  have hhead : transHdr ≤ weightsBytesOf c - c.vocab.toNat * c.dModel.toNat := by
    rw [weightsBytesOf, Nat.mul_assoc 2]
    omega
  apply SameHdr.loop
  · apply SameHdr.loop
    · apply SameHdr.loop (fun k hk ↦ rfl)
      intro l w₁ hw₁
      have ho := hlay l
      apply SameHdr.loop
      · apply SameHdr.loop hw₁
        intro i w₂ hw₂
        exact hw₂.putRnd (by omega)
      · intro i w₂ hw₂
        exact (((hw₂.put 16 (by omega)).put 16 (by omega)).put 0 (by omega)).put 0 (by omega)
    · intro i w₁ hw₁
      exact (hw₁.putRnd (by omega)).putRnd (by omega)
  · intro i w₁ hw₁
    exact (hw₁.put 16 (by omega)).put 0 (by unfold oFinlnB; omega)

/-- The blob belongs to the live configuration. -/
structure BlobOk (s : TransState) : Prop where
  size : s.wbytes = weightsBytesOf s.cfg
  header : HeaderEncodes s.blob s.cfg

theorem blobOk_fillBlob (s : TransState) (blob : Mem) : BlobOk (fillBlob s blob) where
  size := rfl
  header := by
    apply headerEncodes_of_eq
    intro k hk
    change (weightsRndinit s.cfg _).blob k = _
    rw [sameHdr_weightsRndinit s.cfg _ k hk]
    exact if_pos hk

theorem blobOk_allocBlob (a : Alloc) (s : TransState) : BlobOk (allocBlob a s) := by
  unfold allocBlob
  simp only
  split_ifs
  · exact blobOk_fillBlob s s.blob
  · exact blobOk_fillBlob _ a.bytes

@[simp] theorem allocBlob_cfg (a : Alloc) (s : TransState) : (allocBlob a s).cfg = s.cfg := by
  simp only [allocBlob]
  split_ifs <;> rfl

@[simp] theorem allocBlob_budgets (a : Alloc) (s : TransState) :
    (allocBlob a s).budgets = s.budgets := by
  simp only [allocBlob]
  split_ifs <;> rfl

@[simp] theorem allocBlob_ws (a : Alloc) (s : TransState) : (allocBlob a s).ws = s.ws := by
  simp only [allocBlob]
  split_ifs <;> rfl

/-! ### Sessions -/

/-- The commands that change the configuration. -/
inductive Act
  | config (layers ctx : UInt32) (a : Alloc)
  | setActCap (kb : UInt32) (a : Alloc)

def step (s : TransState) : Act → TransState
  | .config layers ctx a => transConfig a s layers ctx
  | .setActCap kb a => transSetActCap a s kb

/-- The budgets after a command. -/
def Act.budgets (s : TransState) : Act → Budgets
  | .config _ _ _ => s.budgets
  | .setActCap kb _ => withActCap s.budgets kb

/-- The configuration a command hands to `degrade`. -/
def Act.candidate (s : TransState) : Act → TransCfg
  | .config layers ctx _ => requested s.cfg layers ctx
  | .setActCap _ _ => s.cfg

/-- The command calls `degrade`; a request for the current configuration does not. -/
def Act.CallsDegrade (s : TransState) : Act → Prop
  | .config layers ctx _ => ¬ sameShape (requested s.cfg layers ctx) s.cfg
  | .setActCap _ _ => True

/-- A command leaves the configuration alone, or a degraded candidate goes live. -/
theorem step_cases (s : TransState) (act : Act) :
    step s act = { s with budgets := act.budgets s } ∨
      act.CallsDegrade s ∧ (degrade (act.budgets s) (act.candidate s)).1 = true ∧
        ∃ a, step s act = adopt a { s with budgets := act.budgets s }
          (degrade (act.budgets s) (act.candidate s)).2 := by
  have hfailed (b : Budgets) (t : TransCfg) (hnew : ¬ sameShape (degradeOr b t s.cfg) s.cfg) :
      (degrade b t).1 = true := by
    by_contra hfail
    rw [degradeOr, if_neg hfail] at hnew
    exact hnew ⟨rfl, rfl, rfl, rfl⟩
  cases act with
  | config layers ctx a =>
    simp only [step, transConfig]
    split_ifs with hsame hback
    · exact .inl rfl
    · exact .inl rfl
    · have hfit := hfailed _ _ hback
      refine .inr ⟨hsame, hfit, a, ?_⟩
      rw [degradeOr, if_pos hfit]
      rfl
  | setActCap kb a =>
    simp only [step, transSetActCap]
    split_ifs with hback
    · exact .inl rfl
    · have hfit := hfailed _ _ hback
      refine .inr ⟨trivial, hfit, a, ?_⟩
      rw [degradeOr, if_pos hfit]
      rfl

/-- The invariant of a session: everything but the lower bound of the context. -/
structure SessionOk (s : TransState) : Prop where
  shape : ShapeOk s.cfg
  blob : BlobOk s

theorem shapeOk_candidate {s : TransState} (hs : ShapeOk s.cfg) (act : Act) :
    ShapeOk (act.candidate s) := by
  cases act with
  | setActCap kb a => exact hs
  | config layers ctx a =>
    have hlayers : transLayersMax = 32 := rfl
    have hctx : transCtxMax = 8192 := rfl
    refine { hs with layersMin := ?_, layersMax := ?_, ctxMax := ?_ }
    · simp only [Act.candidate, requested]
      split_ifs with hreq
      · rw [UInt32.toNat_toUInt16]
        omega
      · exact hs.layersMin
    · simp only [Act.candidate, requested]
      split_ifs with hreq
      · rw [UInt32.toNat_toUInt16]
        omega
      · exact hs.layersMax
    · simp only [Act.candidate, requested]
      split_ifs with hreq
      · rw [UInt32.toNat_toUInt16]
        omega
      · exact hs.ctxMax

theorem sessionOk_step {s : TransState} (hs : SessionOk s) (act : Act) :
    SessionOk (step s act) := by
  obtain hstay | ⟨-, -, a, hadopt⟩ := step_cases s act
  · rw [hstay]
    exact ⟨hs.shape, hs.blob.size, hs.blob.header⟩
  · rw [hadopt]
    constructor
    · change ShapeOk (allocBlob a _).cfg
      rw [allocBlob_cfg]
      exact shapeOk_degrade (shapeOk_candidate hs.shape act)
    · have hblob := blobOk_allocBlob a { s with
        budgets := act.budgets s, cfg := (degrade (act.budgets s) (act.candidate s)).2 }
      exact ⟨hblob.size, hblob.header⟩

/-- The command does not make `degrade` halve a context of 17 to 31. -/
def KeepsCtx (s : TransState) (act : Act) : Prop :=
  act.CallsDegrade s → ¬ LateHalf (act.budgets s) (act.candidate s)

theorem ctx_candidate {s : TransState} (hctx : transCtxMin ≤ s.cfg.ctx.toNat) (act : Act) :
    transCtxMin ≤ (act.candidate s).ctx.toNat := by
  cases act with
  | setActCap kb a => exact hctx
  | config layers ctx a =>
    have hmax : transCtxMax = 8192 := rfl
    simp only [Act.candidate, requested]
    split_ifs with hreq
    · rw [UInt32.toNat_toUInt16]
      omega
    · exact hctx

theorem ctx_step {s : TransState} (hctx : transCtxMin ≤ s.cfg.ctx.toNat) {act : Act}
    (hkeeps : KeepsCtx s act) : transCtxMin ≤ (step s act).cfg.ctx.toNat := by
  obtain hstay | ⟨hcalls, -, a, hadopt⟩ := step_cases s act
  · rw [hstay]
    exact hctx
  · rw [hadopt]
    change transCtxMin ≤ (allocBlob a _).cfg.ctx.toNat
    rw [allocBlob_cfg]
    exact (degrade_ctx_iff (ctx_candidate hctx act)).mpr (hkeeps hcalls)

/-- Booting establishes all the bounds. -/
theorem sessionOk_transInit {fuel totalBytes : ℕ} {a : Alloc} {s : TransState}
    (hinit : transInit fuel totalBytes a = some s) :
    SessionOk s ∧ transCtxMin ≤ s.cfg.ctx.toNat := by
  obtain ⟨c, htune, rfl⟩ := Option.map_eq_some_iff.mp hinit
  have hgrown := grown_autotune grown_specCfg htune
  refine ⟨⟨?_, blobOk_allocBlob a _⟩, ?_⟩
  · rw [allocBlob_cfg]
    exact shapeOk_degrade hgrown.shape
  · rw [allocBlob_cfg]
    obtain ⟨j, hj, -, hctx⟩ := hgrown.ctx
    have hmin : transCtxMin ≤ c.ctx.toNat := by
      rw [hctx]
      exact Nat.pow_le_pow_right (by decide : 0 < 2) hj
    exact (degrade_ctx_iff hmin).mpr (not_lateHalf_of_pow hctx)

/-- The bounds of `trans.h`. -/
structure CfgInBounds (c : TransCfg) : Prop where
  dModel : transDMin ≤ c.dModel.toNat ∧ c.dModel.toNat ≤ transDMax
  nHeads : 1 ≤ c.nHeads.toNat ∧ c.nHeads.toNat ∣ c.dModel.toNat
  nLayers : transLayersMin ≤ c.nLayers.toNat ∧ c.nLayers.toNat ≤ transLayersMax
  ctx : transCtxMin ≤ c.ctx.toNat ∧ c.ctx.toNat ≤ transCtxMax
  dFf : 1 ≤ c.dFf.toNat

/-- On every machine on which the model boots, and in every session whose commands do not make
`degrade` halve a context of 17 to 31, the live configuration is within its bounds and the blob is
the one of that configuration. -/
theorem config_bounds_session {fuel totalBytes : ℕ} {a : Alloc} {s t : TransState}
    (hinit : transInit fuel totalBytes a = some s) (hrun : Run step KeepsCtx s t) :
    CfgInBounds t.cfg ∧ t.wbytes = weightsBytesOf t.cfg ∧ HeaderEncodes t.blob t.cfg := by
  have hinv : SessionOk t ∧ transCtxMin ≤ t.cfg.ctx.toNat := by
    refine hrun.invariant (fun u ↦ SessionOk u ∧ transCtxMin ≤ u.cfg.ctx.toNat)
      (sessionOk_transInit hinit) ?_
    rintro u act ⟨hu, hctx⟩ hkeeps
    exact ⟨sessionOk_step hu act, ctx_step hctx hkeeps⟩
  obtain ⟨hok, hctx⟩ := hinv
  have hheads : 1 ≤ t.cfg.nHeads.toNat := by
    rw [hok.shape.heads]
    decide
  exact ⟨⟨⟨hok.shape.width_min, hok.shape.width_max⟩, ⟨hheads, hok.shape.heads_dvd⟩,
    ⟨hok.shape.layersMin, hok.shape.layersMax⟩, ⟨hctx, hok.shape.ctxMax⟩, hok.shape.ff⟩,
    hok.blob.size, hok.blob.header⟩

theorem degrade_of_fits {b : Budgets} {c : TransCfg} (hfits : fits b c) :
    degrade b c = (true, c) := by
  rw [degrade, if_pos hfits]

theorem degrade_of_shrink {b : Budgets} {c : TransCfg} (c' : TransCfg) (hfits : ¬ fits b c)
    (hshrink : shrink c = some c') : degrade b c = degrade b c' := by
  rw [degrade, if_neg hfits]
  split
  · next c₁ h =>
    rw [hshrink] at h
    cases h
    rfl
  · next h =>
    rw [hshrink] at h
    cases h

/-- On a 64 MiB machine the model boots with a context of 128. -/
theorem transInit_64MiB (a : Alloc) :
    ∃ s, transInit 1 (2 ^ 26) a = some s ∧ s.cfg = specWith 256 128 ∧
      s.budgets = initBudgets (2 ^ 26) := by
  have htune : autotune (initBudgets (2 ^ 26)) 1 specCfg = some specCfg := by decide +kernel
  have hcfg : (degrade (initBudgets (2 ^ 26)) specCfg).2 = specWith 256 128 := by
    rw [degrade_of_shrink (specWith 256 128) (by decide +kernel) (by decide +kernel),
      degrade_of_fits (by decide +kernel)]
  rw [transInit, htune, Option.map_some]
  refine ⟨_, rfl, ?_, ?_⟩
  · rw [allocBlob_cfg]
    exact hcfg
  · rw [allocBlob_budgets]

/-- A block of the heap. -/
def heapBlock : Alloc := ⟨0x200000, fun _ ↦ 0⟩

/-- A request for 4 layers and a context of 64 on such a machine. -/
theorem config_bounds_session_64MiB :
    ∃ s, transInit 1 (2 ^ 26) heapBlock = some s ∧
      CfgInBounds (step s (.config 4 64 heapBlock)).cfg ∧
      (step s (.config 4 64 heapBlock)).wbytes =
        weightsBytesOf (step s (.config 4 64 heapBlock)).cfg ∧
      HeaderEncodes (step s (.config 4 64 heapBlock)).blob
        (step s (.config 4 64 heapBlock)).cfg := by
  obtain ⟨s, hinit, -, -⟩ := transInit_64MiB heapBlock
  have hctx : ((Act.config 4 64 heapBlock).candidate s).ctx.toNat = 2 ^ 6 := by
    simp only [Act.candidate, requested]
    rw [if_pos (by decide)]
    rfl
  have hkeeps : KeepsCtx s (.config 4 64 heapBlock) := fun _ ↦ not_lateHalf_of_pow hctx
  exact ⟨s, hinit, config_bounds_session hinit (Run.refl.snoc _ hkeeps)⟩

/-- With the activation cap at 4300 KB a request for a context of 24 ends with a context of 12. -/
theorem ctx_falls_below_min :
    ∃ s, transInit 1 (2 ^ 26) heapBlock = some s ∧
      ([.setActCap 4300 heapBlock, .config 8 24 heapBlock].foldl step s).cfg.ctx = 12 ∧
      ¬ CfgInBounds ([.setActCap 4300 heapBlock, .config 8 24 heapBlock].foldl step s).cfg := by
  obtain ⟨s, hinit, hcfg, hbudgets⟩ := transInit_64MiB heapBlock
  let b := withActCap (initBudgets (2 ^ 26)) 4300
  have hcap : degrade b (specWith 256 128) = (true, specWith 256 16) := by
    rw [degrade_of_shrink (specWith 256 64) (by decide +kernel) (by decide +kernel),
      degrade_of_shrink (specWith 256 32) (by decide +kernel) (by decide +kernel),
      degrade_of_shrink (specWith 256 16) (by decide +kernel) (by decide +kernel),
      degrade_of_fits (by decide +kernel)]
  have hlate : degrade b (specWith 256 24) = (true, specWith 256 12) := by
    rw [degrade_of_shrink (specWith 256 12) (by decide +kernel) (by decide +kernel),
      degrade_of_fits (by decide +kernel)]
  have hfirst : (step s (.setActCap 4300 heapBlock)).cfg = specWith 256 16 ∧
      (step s (.setActCap 4300 heapBlock)).budgets = b := by
    simp only [step, transSetActCap, hcfg, hbudgets, degradeOr, hcap, b]
    rw [if_neg (by decide)]
    simp [adopt, freeWorkspace]
  have hsecond : ([.setActCap 4300 heapBlock, .config 8 24 heapBlock].foldl step s).cfg =
      specWith 256 12 := by
    simp only [List.foldl_cons, List.foldl_nil]
    generalize step s (.setActCap 4300 heapBlock) = u at hfirst
    have hreq : requested (specWith 256 16) 8 24 = specWith 256 24 := by decide
    simp only [step, transConfig, hfirst.1, hfirst.2, degradeOr, hreq, hlate]
    rw [if_neg (by decide), if_neg (by decide)]
    simp [adopt, freeWorkspace]
  refine ⟨s, hinit, ?_, ?_⟩
  · rw [hsecond]
    rfl
  · rw [hsecond]
    intro hbounds
    exact absurd hbounds.ctx.1 (by decide)

end NoOsKernel.Trans
