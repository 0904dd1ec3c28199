import NoOsKernel.Trans.Forward
import Mathlib.Tactic.Ring

/-!
# The forward pass and its workspace

The buffers are sized by the configured context, the pass strides by the number of tokens it is
given. A pass over no more tokens than the context stays inside; one over more does not. The batch
of `trans_eval` and `trans_train` is cut to the context, but the window of `trans_generate` is 32
tokens whatever the context is.
-/

set_option autoImplicit false
set_option relaxedAutoImplicit false

namespace NoOsKernel.Trans

open Lib Lib.Prog

/-! ### The buffers -/

/-- The lengths `alloc_workspace` reserves under a configuration. -/
def workspaceOf (c : TransCfg) : Workspace where
  h0 := (c.nLayers.toNat + 1) * c.ctx.toNat * c.dModel.toNat
  fwdLay := c.nLayers.toNat * laybufWords c
  logits := c.ctx.toNat * transVocab
  scr := c.ctx.toNat * c.dModel.toNat
  gup := c.dFf.toNat

/-- The lengths of all the buffers; those of a training run follow `alloc_train`. -/
def bufLen (ws : Workspace) (c : TransCfg) : WsBuf → ℕ
  | .h0 => ws.h0
  | .fwdLay => ws.fwdLay
  | .logits => ws.logits
  | .scr => ws.scr
  | .gup => ws.gup
  | .lnout => c.nLayers.toNat * 2 * c.ctx.toNat * c.dModel.toNat
  | .gact => c.nLayers.toNat * c.ctx.toNat * c.dFf.toNat
  | .yf => (c.nLayers.toNat + 1) * c.ctx.toNat * c.dModel.toNat

/-- `alloc_workspace`: the buffers that are there stay; `ok` says whether `kmalloc` finds room. -/
def allocWorkspace (ok : Bool) (s : TransState) : TransState :=
  if s.ws.isSome then s else if ok then { s with ws := some (workspaceOf s.cfg) } else s

/-! ### Indices -/

section Indices

variable {c : TransCfg} {C : ℕ}

/-- A position in a matrix stored row by row. -/
theorem row_add_lt {t n j m : ℕ} (ht : t < n) (hj : j < m) : t * m + j < n * m :=
  calc t * m + j < (t + 1) * m := by rw [Nat.succ_mul]; omega
    _ ≤ n * m := Nat.mul_le_mul_right m ht

/-- A head's columns are columns of the model. -/
theorem head_col_lt {hd H D k : ℕ} (hhd : hd < H) (hk : k < D / H) : hd * (D / H) + k < D :=
  (row_add_lt hhd hk).trans_le (Nat.mul_div_le D H)

/-- The lengths under the current configuration. -/
abbrev room (c : TransCfg) : WsBuf → ℕ := bufLen (workspaceOf c) c

-- the pass is over no more tokens than the context
variable (hC : C ≤ c.ctx.toNat)
include hC

theorem block_le : C * c.dModel.toNat ≤ c.ctx.toNat * c.dModel.toNat :=
  Nat.mul_le_mul_right _ hC

theorem h0_lt {l i : ℕ} (hl : l ≤ c.nLayers.toNat) (hi : i < C * c.dModel.toNat) :
    l * (C * c.dModel.toNat) + i < room c .h0 :=
  calc l * (C * c.dModel.toNat) + i
      < (c.nLayers.toNat + 1) * (C * c.dModel.toNat) := row_add_lt (by omega) hi
    _ ≤ (c.nLayers.toNat + 1) * (c.ctx.toNat * c.dModel.toNat) :=
      Nat.mul_le_mul_left _ (block_le hC)
    _ = room c .h0 := (Nat.mul_assoc _ _ _).symm

theorem yf_lt {l i : ℕ} (hl : l ≤ c.nLayers.toNat) (hi : i < C * c.dModel.toNat) :
    l * (C * c.dModel.toNat) + i < room c .yf :=
  h0_lt hC hl hi

theorem scr_lt {i : ℕ} (hi : i < C * c.dModel.toNat) : i < room c .scr :=
  hi.trans_le (block_le hC)

theorem logits_lt {t j : ℕ} (ht : t < C) (hj : j < transVocab) :
    t * transVocab + j < room c .logits :=
  row_add_lt (ht.trans_le hC) hj

theorem lnout_lt {l i : ℕ} (hl : l < c.nLayers.toNat) (hi : i < 2 * C * c.dModel.toNat) :
    l * (2 * C * c.dModel.toNat) + i < room c .lnout :=
  calc l * (2 * C * c.dModel.toNat) + i
      < c.nLayers.toNat * (2 * C * c.dModel.toNat) := row_add_lt hl hi
    _ ≤ c.nLayers.toNat * (2 * c.ctx.toNat * c.dModel.toNat) :=
      Nat.mul_le_mul_left _ (Nat.mul_le_mul_right _ (Nat.mul_le_mul_left _ hC))
    _ = room c .lnout := by
      change _ = c.nLayers.toNat * 2 * c.ctx.toNat * c.dModel.toNat
      ring

theorem gact_lt {l t j : ℕ} (hl : l < c.nLayers.toNat) (ht : t < C) (hj : j < c.dFf.toNat) :
    l * (C * c.dFf.toNat) + t * c.dFf.toNat + j < room c .gact := by
  rw [Nat.add_assoc]
  calc l * (C * c.dFf.toNat) + (t * c.dFf.toNat + j)
      < c.nLayers.toNat * (C * c.dFf.toNat) := row_add_lt hl (row_add_lt ht hj)
    _ ≤ c.nLayers.toNat * (c.ctx.toNat * c.dFf.toNat) :=
      Nat.mul_le_mul_left _ (Nat.mul_le_mul_right _ hC)
    _ = room c .gact := (Nat.mul_assoc _ _ _).symm

/-- The block of a layer ends before the next one. -/
theorem lay_lt {l i : ℕ} (hl : l < c.nLayers.toNat)
    (hi : i < (dims c C).offA + C * c.dModel.toNat) :
    l * (dims c C).per + i < room c .fwdLay := by
  have hsq : c.nHeads.toNat * C * C ≤ c.nHeads.toNat * c.ctx.toNat * c.ctx.toNat :=
    Nat.mul_le_mul (Nat.mul_le_mul_left _ hC) hC
  have hblock := block_le hC
  have hper : (dims c C).offA + C * c.dModel.toNat ≤ laybufWords c := by
    have hoff : (dims c C).offA + C * c.dModel.toNat =
        4 * (C * c.dModel.toNat) + c.nHeads.toNat * C * C := by
      change C * (c.dModel.toNat * 2) + C * c.dModel.toNat + c.nHeads.toNat * C * C +
        C * c.dModel.toNat = _
      ring
    have hwords : laybufWords c = 4 * (c.ctx.toNat * c.dModel.toNat) +
        c.nHeads.toNat * c.ctx.toNat * c.ctx.toNat := by
      rw [laybufWords]
      ring
    omega
  exact row_add_lt hl (hi.trans_le hper)

end Indices

/-! ### The pieces of the pass -/

section Pieces

variable {len : WsBuf → ℕ}

theorem within_layernorm {b : WsBuf} {off D : ℕ} {g bias : ℕ → ℤ}
    (hoff : ∀ i < D, off + i < len b) : Within len (layernorm b off D g bias) := by
  apply within_bind
  · apply within_fold
    intro i acc hi
    exact within_bind (within_read (hoff i hi)) fun _ ↦ within_pure _
  · intro acc
    apply within_loop
    intro i hi
    exact within_bind (within_read (hoff i hi)) fun _ ↦ within_write _ (hoff i hi)

theorem within_copyWords {n doff soff : ℕ} {dst src : WsBuf} (hdst : ∀ t < n, doff + t < len dst)
    (hsrc : ∀ t < n, soff + t < len src) : Within len (copyWords n dst doff src soff) := by
  apply within_loop
  intro t ht
  exact within_bind (within_read (hsrc t ht)) fun v ↦ within_write v (hdst t ht)

theorem within_stashWords {x : Inputs} {n doff soff : ℕ} {dst src : WsBuf}
    (hdst : ∀ t < n, doff + t < len dst) (hsrc : ∀ t < n, soff + t < len src) :
    Within len (stashWords x n dst doff src soff) :=
  within_ite (fun _ ↦ within_copyWords hdst hsrc) fun _ ↦ within_pure _

theorem within_dot {x : Inputs} {n off : ℕ} {wi : ℕ → ℕ} {b : WsBuf}
    (hoff : ∀ k < n, off + k < len b) : Within len (dot x n wi b off) := by
  apply within_fold
  intro k a hk
  exact within_bind (within_read (hoff k hk)) fun _ ↦ within_pure _

end Pieces

theorem offK_le_offV (c : TransCfg) (C : ℕ) : (dims c C).offK ≤ (dims c C).offV :=
  Nat.mul_le_mul_left _ (by change c.dModel.toNat ≤ c.dModel.toNat * 2; omega)

section Layers

variable {c : TransCfg} {C : ℕ} (hC : C ≤ c.ctx.toNat) (x : Inputs)
include hC

theorem within_embed : Within (room c) (embed (dims c C) x) := by
  apply within_loop
  intro t ht
  apply within_loop
  intro j hj
  apply within_write
  have hidx := h0_lt hC (Nat.zero_le _) (row_add_lt ht hj)
  rwa [Nat.zero_mul, Nat.zero_add] at hidx

theorem within_preNorm {l gOff bOff : ℕ} (hl : l ≤ c.nLayers.toNat) :
    Within (room c) (preNorm (dims c C) x (l * (C * c.dModel.toNat)) gOff bOff) := by
  apply within_bind
  · apply within_copyWords
    · intro t ht
      rw [Nat.zero_add]
      exact scr_lt hC ht
    · intro t ht
      exact h0_lt hC hl ht
  · intro _
    apply within_loop
    intro t ht
    apply within_layernorm
    intro i hi
    exact scr_lt hC (row_add_lt ht hi)

/-- An entry of `Q`, `K` or `V`. -/
theorem qkv_lt {l off t j : ℕ} (hl : l < c.nLayers.toNat) (hoff : off ≤ (dims c C).offV)
    (ht : t < C) (hj : j < c.dModel.toNat) :
    l * (dims c C).per + (off + (t * c.dModel.toNat + j)) < room c .fwdLay := by
  have hrow := row_add_lt ht hj
  apply lay_lt hC hl
  unfold Dims.offA Dims.offS
  change off + _ < (dims c C).offV + C * c.dModel.toNat + _ + _
  omega

theorem within_project {l lo : ℕ} (hl : l < c.nLayers.toNat) :
    Within (room c) (project (dims c C) x lo (l * (dims c C).per)) := by
  apply within_loop
  intro t ht
  apply within_loop
  intro j hj
  have hscr : ∀ k < (dims c C).D, t * (dims c C).D + k < room c .scr :=
    fun k hk ↦ scr_lt hC (row_add_lt ht hk)
  have hq := qkv_lt hC hl (Nat.zero_le _) ht hj
  rw [Nat.zero_add] at hq
  apply within_bind (within_dot hscr)
  intro a
  apply within_bind (within_write _ hq)
  intro _
  apply within_bind (within_dot hscr)
  intro a
  apply within_bind (within_write _ (qkv_lt hC hl (offK_le_offV c C) ht hj))
  intro _
  apply within_bind (within_dot hscr)
  intro a
  exact within_write _ (qkv_lt hC hl (le_refl _) ht hj)

/-- An entry of `S`. -/
theorem at_lt {l hd i j : ℕ} (hl : l < c.nLayers.toNat) (hhd : hd < c.nHeads.toNat) (hi : i < C)
    (hj : j < C) : (dims c C).at (l * (dims c C).per) hd i j < room c .fwdLay := by
  have hentry : hd * C * C + (i * C + j) < c.nHeads.toNat * C * C := by
    rw [Nat.mul_assoc, Nat.mul_assoc]
    exact row_add_lt hhd (row_add_lt hi hj)
  apply lay_lt hC hl
  unfold Dims.offA
  change (dims c C).offS + (hd * C * C + (i * C + j)) <
    (dims c C).offS + c.nHeads.toNat * C * C + C * c.dModel.toNat
  omega

/-- An entry of `A`. -/
theorem att_lt {l i j : ℕ} (hl : l < c.nLayers.toNat) (hi : i < C) (hj : j < c.dModel.toNat) :
    l * (dims c C).per + ((dims c C).offA + (i * c.dModel.toNat + j)) < room c .fwdLay := by
  apply lay_lt hC hl
  have hrow := row_add_lt hi hj
  omega

omit x in
theorem within_score {l hd i j : ℕ} (hl : l < c.nLayers.toNat) (hhd : hd < c.nHeads.toNat)
    (hi : i < C) (hj : j < C) :
    Within (room c) (score (dims c C) (l * (dims c C).per) hd i j) := by
  apply within_ite
  · exact fun _ ↦ within_pure _
  · intro _
    apply within_bind
    · apply within_fold
      intro k acc hk
      have hcol := head_col_lt hhd hk
      have hq := qkv_lt hC hl (Nat.zero_le _) hi hcol
      rw [Nat.zero_add] at hq
      apply within_bind (within_read hq)
      intro q
      apply within_bind (within_read (qkv_lt hC hl (offK_le_offV c C) hj hcol))
      exact fun _ ↦ within_pure _
    · exact fun _ ↦ within_pure _

omit x in
theorem within_attendRow {l hd i : ℕ} (hl : l < c.nLayers.toNat) (hhd : hd < c.nHeads.toNat)
    (hi : i < C) : Within (room c) (attendRow (dims c C) (l * (dims c C).per) hd i) := by
  have hat : ∀ j < C, (dims c C).at (l * (dims c C).per) hd i j < room c .fwdLay :=
    fun j hj ↦ at_lt hC hl hhd hi hj
  apply within_bind
  · apply within_fold
    intro j mx hj
    apply within_bind (within_score hC hl hhd hi hj)
    intro s
    exact within_bind (within_write _ (hat j hj)) fun _ ↦ within_pure _
  intro mx
  apply within_bind
  · apply within_fold
    intro j esum hj
    apply within_bind (within_read (hat j hj))
    intro v
    exact within_bind (within_write _ (hat j hj)) fun _ ↦ within_pure _
  intro esum
  apply within_bind
  · apply within_loop
    intro j hj
    exact within_bind (within_read (hat j hj)) fun _ ↦ within_write _ (hat j hj)
  intro _
  apply within_loop
  intro o ho
  have hcol := head_col_lt hhd ho
  apply within_bind
  · apply within_fold
    intro j acc hj
    apply within_bind (within_read (hat j hj))
    intro s
    apply within_bind (within_read (qkv_lt hC hl (le_refl _) hj hcol))
    exact fun _ ↦ within_pure _
  · exact fun _ ↦ within_write _ (att_lt hC hl hi hcol)

omit x in
theorem within_attention {l : ℕ} (hl : l < c.nLayers.toNat) :
    Within (room c) (attention (dims c C) (l * (dims c C).per)) := by
  apply within_loop
  intro hd hhd
  apply within_loop
  exact fun i hi ↦ within_attendRow hC hl hhd hi

theorem within_outProject {l lo : ℕ} (hl : l < c.nLayers.toNat) :
    Within (room c) (outProject (dims c C) x lo (l * (dims c C).per) (l * (C * c.dModel.toNat))
      ((l + 1) * (C * c.dModel.toNat))) := by
  apply within_loop
  intro t ht
  apply within_loop
  intro j hj
  have hrow := row_add_lt ht hj
  apply within_bind
  · apply within_dot
    intro k hk
    have hidx := att_lt hC hl ht hk
    rwa [← Nat.add_assoc (dims c C).offA, ← Nat.add_assoc] at hidx
  intro acc
  apply within_bind (within_read (h0_lt hC (by omega) hrow))
  intro r
  exact within_write _ (h0_lt hC (by omega) hrow)

theorem within_feedForward {l wup wdn t : ℕ} (hl : l < c.nLayers.toNat) (ht : t < C) :
    Within (room c) (feedForward (dims c C) x wup wdn l ((l + 1) * (C * c.dModel.toNat)) t) := by
  have hgup : ∀ j < c.dFf.toNat, 0 + j < room c .gup := by
    intro j hj
    rwa [Nat.zero_add]
  apply within_bind
  · apply within_loop
    intro j hj
    apply within_bind (within_dot fun k hk ↦ scr_lt hC (row_add_lt ht hk))
    exact fun a ↦ within_write _ hj
  intro _
  apply within_bind (within_stashWords (fun j hj ↦ gact_lt hC hl ht hj) hgup)
  intro _
  apply within_loop
  intro j hj
  have hidx := h0_lt hC (by omega : l + 1 ≤ c.nLayers.toNat) (row_add_lt ht hj)
  apply within_bind (within_dot hgup)
  intro a
  exact within_bind (within_read hidx) fun r ↦ within_write _ hidx

theorem within_layer {l : ℕ} (hl : l < c.nLayers.toNat) :
    Within (room c) (layer c (dims c C) x l) := by
  have hscr : ∀ t < C * c.dModel.toNat, 0 + t < room c .scr := by
    intro t ht
    rw [Nat.zero_add]
    exact scr_lt hC ht
  have hdouble : 2 * C * c.dModel.toNat = C * c.dModel.toNat + C * c.dModel.toNat := by ring
  apply within_bind (within_preNorm hC x (by omega))
  intro _
  apply within_bind (within_stashWords (fun t ht ↦ lnout_lt hC hl (by
    change t < C * c.dModel.toNat at ht
    omega)) hscr)
  intro _
  apply within_bind (within_project hC x hl)
  intro _
  apply within_bind (within_attention hC hl)
  intro _
  apply within_bind (within_outProject hC x hl)
  intro _
  apply within_bind (within_stashWords (fun t ht ↦ yf_lt hC (by omega) ht)
    fun t ht ↦ h0_lt hC (by omega) ht)
  intro _
  apply within_bind (within_preNorm hC x (by omega))
  intro _
  apply within_bind (within_stashWords (fun t ht ↦ by
    rw [Nat.add_assoc]
    apply lnout_lt hC hl
    change t < C * c.dModel.toNat at ht
    change C * c.dModel.toNat + t < _
    omega) hscr)
  intro _
  apply within_loop
  exact fun t ht ↦ within_feedForward hC x hl ht

theorem within_outputHead : Within (room c) (outputHead c (dims c C) x) := by
  have hfin : ∀ t < C, ∀ k < c.dModel.toNat,
      c.nLayers.toNat * (C * c.dModel.toNat) + t * c.dModel.toNat + k < room c .h0 := by
    intro t ht k hk
    rw [Nat.add_assoc]
    exact h0_lt hC (le_refl _) (row_add_lt ht hk)
  apply within_bind (within_stashWords (fun t ht ↦ yf_lt hC (le_refl _) ht)
    fun t ht ↦ h0_lt hC (le_refl _) ht)
  intro _
  apply within_bind
  · apply within_loop
    exact fun t ht ↦ within_layernorm (hfin t ht)
  intro _
  apply within_loop
  intro t ht
  apply within_loop
  intro j hj
  apply within_bind (within_dot (hfin t ht))
  exact fun a ↦ within_write _ (logits_lt hC ht hj)

/-- A pass over no more tokens than the context stays inside the workspace. -/
theorem within_transForward : Within (room c) (transForward c C x) := by
  apply within_bind (within_embed hC x)
  intro _
  apply within_bind
  · apply within_loop
    exact fun l hl ↦ within_layer hC x hl
  · exact fun _ ↦ within_outputHead hC x

end Layers

/-- A pass writes the logits of its last token. -/
theorem uses_transForward {C : ℕ} (hpos : 0 < C) (c : TransCfg) (x : Inputs) :
    Uses (transForward c C x) .logits ((C - 1) * transVocab + 255) := by
  apply uses_bind_right
  intro _
  apply uses_bind_right
  intro _
  apply uses_bind_right
  intro _
  apply uses_bind_right
  intro _
  have hlast : C - 1 < C := by omega
  apply uses_loop hlast
  apply uses_loop (by decide : 255 < transVocab)
  exact uses_bind_right fun _ ↦ uses_write _

/-- A pass stays inside its workspace exactly when it is over no more tokens than the context. -/
theorem within_transForward_iff {C : ℕ} (hpos : 0 < C) (c : TransCfg) (x : Inputs) :
    Within (room c) (transForward c C x) ↔ C ≤ c.ctx.toNat := by
  constructor
  · intro hwithin
    have hlt : (C - 1) * transVocab + 255 < c.ctx.toNat * transVocab :=
      hwithin.lt_of_uses (uses_transForward hpos c x)
    by_contra hlong
    have hle : c.ctx.toNat * transVocab ≤ (C - 1) * transVocab :=
      Nat.mul_le_mul_right _ (by omega)
    omega
  · exact fun hC ↦ within_transForward hC x

/-! ### The callers -/

theorem within_argmax {len : WsBuf → ℕ} {row : ℕ}
    (hrow : ∀ j < transVocab, row + j < len .logits) : Within len (argmax row) := by
  apply within_bind
  · apply within_fold
    intro b acc hb
    exact within_bind (within_read (hrow b hb)) fun _ ↦ within_pure _
  · exact fun _ ↦ within_pure _

/-- `softmax_v` uses `scr` for the whole vocabulary. -/
theorem within_softmaxV {len : WsBuf → ℕ} {row : ℕ}
    (hrow : ∀ j < transVocab, row + j < len .logits) (hscr : transVocab ≤ len .scr) :
    Within len (softmaxV row) := by
  have hp : ∀ j < transVocab, j < len .scr := fun j hj ↦ hj.trans_le hscr
  apply within_bind
  · apply within_fold
    intro j mx hj
    exact within_bind (within_read (hrow j hj)) fun _ ↦ within_pure _
  intro mx
  apply within_bind
  · apply within_fold
    intro j esum hj
    apply within_bind (within_read (hrow j hj))
    intro v
    exact within_bind (within_write _ (hp j hj)) fun _ ↦ within_pure _
  intro esum
  apply within_loop
  intro j hj
  exact within_bind (within_read (hp j hj)) fun e ↦ within_write _ (hp j hj)

section Callers

variable {c : TransCfg}

theorem within_generateRound (w : ℕ → ℤ) (stash : Bool) {toks : List ℕ} (hne : toks ≠ [])
    (hlen : toks.length ≤ c.ctx.toNat) : Within (room c) (generateRound c w stash toks) := by
  have hpos := List.length_pos_iff.mpr hne
  apply within_bind (within_transForward hlen _)
  intro _
  apply within_bind
  · apply within_argmax
    exact fun j hj ↦ logits_lt hlen (by omega) hj
  · exact fun _ ↦ within_pure _

theorem shiftWindow_ne_nil (toks : List ℕ) (nb : ℕ) : shiftWindow toks nb ≠ [] := by
  unfold shiftWindow
  split_ifs <;> simp

theorem length_shiftWindow_le {toks : List ℕ} (nb : ℕ) (hlen : toks.length ≤ transGenWin) :
    (shiftWindow toks nb).length ≤ transGenWin := by
  unfold shiftWindow
  split_ifs with hfull
  · rw [List.length_append, List.length_tail, List.length_singleton]
    rw [transGenWin] at hlen hfull ⊢
    omega
  · rw [List.length_append, List.length_singleton]
    omega

/-- With room for the window every round stays inside. -/
theorem within_generateLoop (w : ℕ → ℤ) (stash : Bool) (hctx : transGenWin ≤ c.ctx.toNat)
    (cap : ℕ) {toks : List ℕ} (hne : toks ≠ []) (hlen : toks.length ≤ transGenWin) :
    Within (room c) (generateLoop c w stash cap toks) := by
  induction cap generalizing toks with
  | zero =>
    exact within_bind (within_generateRound w stash hne (hlen.trans hctx)) fun _ ↦ within_pure _
  | succ cap ih =>
    apply within_bind (within_generateRound w stash hne (hlen.trans hctx))
    intro next
    cases next with
    | none => exact within_pure _
    | some nb =>
      apply within_bind (ih (shiftWindow_ne_nil toks nb) (length_shiftWindow_le nb hlen))
      exact fun _ ↦ within_pure _

theorem firstWindow_spec (seed : List Byte) :
    firstWindow seed ≠ [] ∧ (firstWindow seed).length ≤ transGenWin := by
  unfold firstWindow
  split_ifs with hseed
  · exact ⟨by simp, by decide⟩
  · refine ⟨?_, ?_⟩
    · simp [hseed, transGenWin]
    · rw [List.length_map, List.length_take]
      omega

theorem batchCtx_le (c : TransCfg) (nb : ℕ) : batchCtx c nb ≤ c.ctx.toNat := by
  unfold batchCtx
  split_ifs <;> omega

theorem within_scoreRow {C t : ℕ} (hC : C ≤ c.ctx.toNat) (ht : t < C) {toks : ℕ → ℕ}
    (htoks : ∀ i, toks i < transVocab) (hscr : transVocab ≤ room c .scr) :
    Within (room c) (scoreRow toks t) := by
  apply within_bind (within_softmaxV (fun j hj ↦ logits_lt hC ht hj) hscr)
  intro _
  apply within_bind (within_read ((htoks _).trans_le hscr))
  intro first
  exact within_bind (within_read ((htoks _).trans_le hscr)) fun second ↦ within_pure _

theorem batchToks_lt (c : TransCfg) (tail : List Byte) (i : ℕ) :
    batchToks c tail i < transVocab :=
  BitVec.isLt _

theorem within_transEval (w : ℕ → ℤ) (stash : Bool) (tail : List Byte)
    (hscr : transVocab ≤ room c .scr) : Within (room c) (transEval c w stash tail) := by
  have hC := batchCtx_le c tail.length
  apply within_ite
  · exact fun _ ↦ within_pure _
  · intro _
    apply within_bind (within_transForward hC _)
    intro _
    apply within_loop
    intro t ht
    apply within_bind (within_scoreRow hC ht (batchToks_lt c tail) hscr)
    intro _
    apply within_bind (within_argmax fun j hj ↦ logits_lt hC ht hj)
    exact fun _ ↦ within_pure _

theorem within_trainPass (w : ℕ → ℤ) (tail : List Byte) (hscr : transVocab ≤ room c .scr) :
    Within (room c) (trainPass c w (batchCtx c tail.length) (batchToks c tail)) := by
  have hC := batchCtx_le c tail.length
  apply within_bind (within_transForward hC _)
  intro _
  apply within_loop
  intro t ht
  apply within_bind (within_scoreRow hC ht (batchToks_lt c tail) hscr)
  exact fun _ ↦ within_pure _

theorem within_transTrain (w : ℕ → ℕ → ℤ) (tail : List Byte) (maxPasses : ℕ)
    (hscr : transVocab ≤ room c .scr) : Within (room c) (transTrain c w tail maxPasses) := by
  apply within_ite
  · exact fun _ ↦ within_pure _
  · intro _
    apply within_loop
    exact fun k _ ↦ within_trainPass (w k) tail hscr

end Callers

/-! ### Sessions -/

/-- A call that runs the forward pass, with the weights it finds and its arguments. -/
inductive Call
  | generate (w : ℕ → ℤ) (stash : Bool) (cap : ℕ) (seed : List Byte)
  | eval (w : ℕ → ℤ) (stash : Bool) (tail : List Byte)
  | train (w : ℕ → ℕ → ℤ) (tail : List Byte) (maxPasses : ℕ)

/-- What a call does to the workspace. -/
def Call.prog (c : TransCfg) : Call → Ws Unit
  | .generate w stash cap seed => do
    let _ ← transGenerate c w stash cap seed
  | .eval w stash tail => transEval c w stash tail
  | .train w tail maxPasses => transTrain c w tail maxPasses

/-- What happens in a session: a reconfiguration, or a call, which first asks for the workspace. -/
inductive Use
  | command (act : Act)
  | call (ok : Bool)

def useStep (s : TransState) : Use → TransState
  | .command act => step s act
  | .call ok => allocWorkspace ok s

/-- The workspace, if it is there, was made for the live configuration. -/
structure WorkspaceOk (s : TransState) : Prop where
  shape : ShapeOk s.cfg
  ws : s.ws = none ∨ s.ws = some (workspaceOf s.cfg)

theorem workspaceOk_useStep {s : TransState} (hs : WorkspaceOk s) (u : Use) :
    WorkspaceOk (useStep s u) := by
  cases u with
  | command act =>
    change WorkspaceOk (step s act)
    obtain hstay | ⟨-, -, a, hadopt⟩ := step_cases s act
    · rw [hstay]
      exact ⟨hs.shape, hs.ws⟩
    · rw [hadopt]
      refine ⟨?_, .inl rfl⟩
      change ShapeOk (allocBlob a _).cfg
      rw [allocBlob_cfg]
      exact shapeOk_degrade (shapeOk_candidate hs.shape act)
  | call ok =>
    change WorkspaceOk (allocWorkspace ok s)
    unfold allocWorkspace
    split_ifs
    · exact hs
    · exact ⟨hs.shape, .inr rfl⟩
    · exact hs

theorem workspaceOk_of_run {fuel totalBytes : ℕ} {a : Alloc} {s t : TransState}
    (hinit : transInit fuel totalBytes a = some s) (hrun : Run useStep (fun _ _ ↦ True) s t) :
    WorkspaceOk t := by
  have hstart : WorkspaceOk s := by
    refine ⟨(sessionOk_transInit hinit).1.shape, .inl ?_⟩
    obtain ⟨c, -, rfl⟩ := Option.map_eq_some_iff.mp hinit
    rw [allocBlob_ws]
  exact hrun.invariant WorkspaceOk hstart fun u act hu _ ↦ workspaceOk_useStep hu act

/-- A call that gets a workspace gets the one of the live configuration. -/
theorem WorkspaceOk.eq_of_alloc {s : TransState} (hs : WorkspaceOk s) {ok : Bool} {ws : Workspace}
    (hws : (allocWorkspace ok s).ws = some ws) : ws = workspaceOf s.cfg := by
  obtain hnone | hsome := hs.ws
  · simp only [allocWorkspace, hnone, Option.isSome_none, Bool.false_eq_true, if_false] at hws
    split_ifs at hws
    · exact (Option.some.inj hws).symm
    · rw [hnone] at hws
      cases hws
  · simp only [allocWorkspace, hsome, Option.isSome_some, if_true] at hws
    exact (Option.some.inj hws).symm

/-- A seed that fills the window. -/
def longSeed : List Byte := List.replicate 32 0x61

/-- Generation from a full window needs room for 32 rows of logits. -/
theorem win_le_of_within_generate {c : TransCfg}
    (hwithin : Within (room c) (Call.prog c (.generate (fun _ ↦ 0) false 1 longSeed))) :
    transGenWin ≤ c.ctx.toNat := by
  have huses : Uses (Call.prog c (.generate (fun _ ↦ 0) false 1 longSeed)) .logits
      ((32 - 1) * transVocab + 255) := by
    apply uses_bind_left
    apply uses_bind_left
    exact uses_bind_left (uses_transForward (by decide : 0 < 32) c _)
  have hlt : (32 - 1) * transVocab + 255 < c.ctx.toNat * transVocab := hwithin.lt_of_uses huses
  rw [transVocab] at hlt
  rw [transGenWin]
  omega

/-- In every state a session reaches, the calls stay inside the workspace they get, whatever their
arguments, exactly when the context has room for the window of `trans_generate`. -/
theorem calls_within_workspace_iff {fuel totalBytes : ℕ} {a : Alloc} {s t : TransState}
    (hinit : transInit fuel totalBytes a = some s) (hrun : Run useStep (fun _ _ ↦ True) s t)
    {ws : Workspace} (hws : (allocWorkspace true t).ws = some ws) :
    (∀ call : Call, Within (bufLen ws t.cfg) (call.prog t.cfg)) ↔
      transGenWin ≤ t.cfg.ctx.toNat := by
  have hok := workspaceOk_of_run hinit hrun
  obtain rfl := hok.eq_of_alloc hws
  constructor
  · exact fun hall ↦ win_le_of_within_generate (hall _)
  · intro hctx call
    have hscr : transVocab ≤ room t.cfg .scr := by
      have hwidth := hok.shape.width_min
      calc transVocab ≤ transGenWin * transDMin := by decide
        _ ≤ t.cfg.ctx.toNat * t.cfg.dModel.toNat := Nat.mul_le_mul hctx hwidth
    cases call with
    | generate w stash cap seed =>
      have hfirst := firstWindow_spec seed
      apply within_bind
      · apply within_ite
        · exact fun _ ↦ within_pure _
        · exact fun _ ↦ within_generateLoop w stash hctx cap hfirst.1 hfirst.2
      · exact fun _ ↦ within_pure _
    | eval w stash tail => exact within_transEval w stash tail hscr
    | train w tail maxPasses => exact within_transTrain w tail maxPasses hscr

/-- On a 64 MiB machine the calls stay inside after boot. -/
theorem calls_within_workspace_64MiB :
    ∃ s, transInit 1 (2 ^ 26) heapBlock = some s ∧
      ∀ call : Call, Within (bufLen (workspaceOf s.cfg) s.cfg) (call.prog s.cfg) := by
  obtain ⟨s, hinit, hcfg, -⟩ := transInit_64MiB heapBlock
  have hws : (allocWorkspace true s).ws = some (workspaceOf s.cfg) := by
    obtain hnone | hsome := (workspaceOk_of_run hinit .refl).ws
    · simp [allocWorkspace, hnone]
    · simp [allocWorkspace, hsome]
  refine ⟨s, hinit, (calls_within_workspace_iff hinit .refl hws).mpr ?_⟩
  rw [hcfg]
  decide

/-- On such a machine with the context set to 16, a seed of 32 bytes makes the forward pass of
`trans_generate` write behind the logits. -/
theorem generate_leaves_workspace :
    ∃ s, transInit 1 (2 ^ 26) heapBlock = some s ∧
      (step s (.config 8 16 heapBlock)).cfg.ctx = 16 ∧
      (allocWorkspace true (step s (.config 8 16 heapBlock))).ws =
        some (workspaceOf (step s (.config 8 16 heapBlock)).cfg) ∧
      ¬ Within (bufLen (workspaceOf (step s (.config 8 16 heapBlock)).cfg)
          (step s (.config 8 16 heapBlock)).cfg)
        (Call.prog (step s (.config 8 16 heapBlock)).cfg
          (.generate (fun _ ↦ 0) false 1 longSeed)) := by
  obtain ⟨s, hinit, hcfg, hbudgets⟩ := transInit_64MiB heapBlock
  have hfits : degrade (initBudgets (2 ^ 26)) (specWith 256 16) = (true, specWith 256 16) :=
    degrade_of_fits (by decide +kernel)
  have hreq : requested (specWith 256 128) 8 16 = specWith 256 16 := by decide
  have hnew : (step s (.config 8 16 heapBlock)).cfg = specWith 256 16 ∧
      (step s (.config 8 16 heapBlock)).ws = none := by
    simp only [step, transConfig, hcfg, hbudgets, degradeOr, hreq, hfits]
    rw [if_neg (by decide), if_neg (by decide)]
    simp [adopt, freeWorkspace]
  refine ⟨s, hinit, ?_, ?_, ?_⟩
  · rw [hnew.1]
    rfl
  · simp [allocWorkspace, hnew.2]
  · rw [hnew.1]
    intro hwithin
    exact absurd (win_le_of_within_generate hwithin) (by decide)

end NoOsKernel.Trans
