import NoOsKernel.Trans.Effects

/-!
# Layer norms over a block of rows

`train_pass` goes back through a layer norm by one call of `ln_bwd` for all its rows, but `ln_bwd`
does one row, where the forward pass calls `layernorm` once for each. So the rows behind the first
keep the gradients of the output as those of the input, and only the first row is charged to gain and
bias. With one token this is all there is (`lnCoversAll_iff`).
-/

set_option autoImplicit false
set_option relaxedAutoImplicit false

namespace NoOsKernel.Trans

open Lib Lib.Prog

/-! ### The calls -/

/-- The layer norms a pass goes back through. -/
inductive LnSite
  | final
  | ln2 (l : ℕ)
  | ln1 (l : ℕ)

/-- The arguments of a call of `ln_bwd`. -/
structure LnArgs where
  buf : WsBuf
  off : ℕ
  ooff : ℕ
  D : ℕ
  g : ℕ → ℤ
  dg : ℕ
  db : ℕ

/-- The call, with its rows moved by `t` rows. -/
def LnArgs.row (a : LnArgs) (t : ℕ) : Tr Unit :=
  lnBwd a.buf (a.off + t * a.D) (a.ooff + t * a.D) a.D a.g a.dg a.db

/-- The call as it is made. -/
def LnArgs.call (a : LnArgs) : Tr Unit := lnBwd a.buf a.off a.ooff a.D a.g a.dg a.db

namespace LnSite

/-- The layer of a layer norm is a layer of the model. -/
def Valid (c : TransCfg) : LnSite → Prop
  | final => True
  | ln2 l => l < c.nLayers.toNat
  | ln1 l => l < c.nLayers.toNat

def args (c : TransCfg) (p : Dims) (x : Inputs) : LnSite → LnArgs
  | final => ⟨.yf, p.L * (p.C * p.D), p.L * (p.C * p.D), p.D, fun i ↦ x.w (oFinlnG c + i),
      oFinlnG c - transHdr, oFinlnB c - transHdr⟩
  | ln2 l => ⟨.yf, l * (p.C * p.D), l * (p.C * p.D), p.D, fun i ↦ x.w (layOff c l + oLn2g c + i),
      layOff c l - transHdr + oLn2g c, layOff c l - transHdr + oLn2b c⟩
  | ln1 l => ⟨.h0, l * (p.C * p.D), l * (p.C * p.D), p.D, fun i ↦ x.w (layOff c l + oLn1g c + i),
      layOff c l - transHdr + oLn1g c, layOff c l - transHdr + oLn1b c⟩

/-- What a pass does before the call. -/
def before (c : TransCfg) (C : ℕ) (x : Inputs) : LnSite → Tr Unit
  | final => do
    let _ ← passFront c C x
  | ln2 l => do
    let _ ← passFront c C x
    finalLnBack c (dims c C) x
    layersBack c C x ((dims c C).L - 1 - l)
    ffnBack c (dims c C) x l
  | ln1 l => do
    let _ ← passFront c C x
    finalLnBack c (dims c C) x
    layersBack c C x ((dims c C).L - 1 - l)
    ffnBack c (dims c C) x l
    ln2Back c (dims c C) x l
    attnBack c (dims c C) x l

end LnSite

variable {c : TransCfg} {C : ℕ} {x : Inputs}

/-- A pass over at least one layer goes through the round of each. -/
theorem layersBack_split {l : ℕ} (hl : l < c.nLayers.toNat) : ∃ rest : Tr Unit,
    layersBack c C x c.nLayers.toNat = layersBack c C x (c.nLayers.toNat - 1 - l) >>= fun _ ↦
      layerBack c (dims c C) x l >>= fun _ ↦ rest := by
  obtain ⟨rest, hsplit⟩ := loop_split (show c.nLayers.toNat - 1 - l < c.nLayers.toNat by omega)
    fun k ↦ layerBack c (dims c C) x (c.nLayers.toNat - 1 - k)
  refine ⟨rest, hsplit.trans ?_⟩
  rw [show c.nLayers.toNat - 1 - (c.nLayers.toNat - 1 - l) = l by omega]
  rfl

theorem passWith_words (m : Words TrainBuf ℤ) : (passWith c C x m).words =
    ((passFront c C x >>= fun _ ↦ finalLnBack c (dims c C) x >>= fun _ ↦
      layersBack c C x c.nLayers.toNat >>= fun _ ↦ embedBack (dims c C) x >>= fun _ ↦
      updAll c (dims c C)) m).words :=
  rfl

/-- A pass is what comes before the call, the call, and the rest. -/
theorem passWith_words_at (site : LnSite) (hvalid : site.Valid c) : ∃ rest : Tr Unit, ∀ m,
    (passWith c C x m).words = ((site.before c C x >>= fun _ ↦
      (site.args c (dims c C) x).call >>= fun _ ↦ rest) m).words := by
  cases site with
  | final =>
    refine ⟨layersBack c C x c.nLayers.toNat >>= fun _ ↦ embedBack (dims c C) x >>= fun _ ↦
      updAll c (dims c C), fun m ↦ ?_⟩
    rw [passWith_words, LnSite.before, bind_assoc]
    rfl
  | ln2 l =>
    obtain ⟨rest, hsplit⟩ := layersBack_split (C := C) (x := x) hvalid
    refine ⟨attnBack c (dims c C) x l >>= fun _ ↦ ln1Back c (dims c C) x l >>= fun _ ↦
      residual (dims c C) l l >>= fun _ ↦ rest >>= fun _ ↦ embedBack (dims c C) x >>= fun _ ↦
      updAll c (dims c C), fun m ↦ ?_⟩
    rw [passWith_words, hsplit]
    simp only [LnSite.before, layerBack, bind_assoc]
    rfl
  | ln1 l =>
    obtain ⟨rest, hsplit⟩ := layersBack_split (C := C) (x := x) hvalid
    refine ⟨residual (dims c C) l l >>= fun _ ↦ rest >>= fun _ ↦ embedBack (dims c C) x >>= fun _ ↦
      updAll c (dims c C), fun m ↦ ?_⟩
    rw [passWith_words, hsplit]
    simp only [LnSite.before, layerBack, bind_assoc]
    rfl

/-! ### Covering all rows -/

/-- What going back through a layer norm should leave: every row has the gradients `ln_bwd` computes
from that row, and gain and bias are charged with what all rows contribute. -/
structure LnArgs.Covers (a : LnArgs) (C : ℕ) (m : Words TrainBuf ℤ) : Prop where
  rows : ∀ t < C, ∀ i < a.D, (a.call m).words (.inr .dhy) (a.ooff + t * a.D + i) =
    (a.row t m).words (.inr .dhy) (a.ooff + t * a.D + i)
  gain : ∀ i < a.D, (a.call m).words (.inr .wgrad) (a.dg + i) = m (.inr .wgrad) (a.dg + i) +
    ∑ t ∈ Finset.range C,
      ((a.row t m).words (.inr .wgrad) (a.dg + i) - m (.inr .wgrad) (a.dg + i))
  bias : ∀ i < a.D, (a.call m).words (.inr .wgrad) (a.db + i) = m (.inr .wgrad) (a.db + i) +
    ∑ t ∈ Finset.range C,
      ((a.row t m).words (.inr .wgrad) (a.db + i) - m (.inr .wgrad) (a.db + i))

/-- The inputs of a pass over the tokens `toks`: the weights are those in the blob. -/
def passInputs (toks : ℕ → Byte) (m : Words TrainBuf ℤ) : Inputs where
  w := m (.inr .wblob)
  toks i := (toks i).toNat
  stash := true

/-- In every pass over `C` tokens, every layer norm is gone through with all its rows. -/
def LnCoversAll (c : TransCfg) (C : ℕ) : Prop :=
  ∀ (toks : ℕ → Byte) (m : Words TrainBuf ℤ), Typed m → ∀ site : LnSite, site.Valid c →
    (site.args c (dims c C) (passInputs toks m)).Covers C
      (site.before c C (passInputs toks m) m).words

theorem LnArgs.row_zero (a : LnArgs) : a.row 0 = a.call := by
  rw [LnArgs.row, Nat.zero_mul, Nat.add_zero, Nat.add_zero]
  rfl

/-- One row is covered by the call. -/
theorem LnArgs.covers_one (a : LnArgs) (m : Words TrainBuf ℤ) : a.Covers 1 m := by
  constructor
  · intro t ht i _
    rw [Nat.lt_one_iff.mp ht, LnArgs.row_zero]
  · intro i _
    rw [Finset.sum_range_one, LnArgs.row_zero, add_sub_cancel]
  · intro i _
    rw [Finset.sum_range_one, LnArgs.row_zero, add_sub_cancel]

/-- Rows without coordinates are covered. -/
theorem LnArgs.covers_empty {a : LnArgs} (hD : a.D = 0) (C : ℕ) (m : Words TrainBuf ℤ) :
    a.Covers C m := by
  have hnone (i : ℕ) : ¬ i < a.D := hD ▸ Nat.not_lt_zero i
  exact ⟨fun _ _ i hi ↦ absurd hi (hnone i), fun i hi ↦ absurd hi (hnone i),
    fun i hi ↦ absurd hi (hnone i)⟩

/-! ### The rows behind the first -/

/-- The sums of the gradients of a row. -/
def gradSums (b : WsBuf) (off ooff D : ℕ) (g : ℕ → ℤ) (mean r : ℤ) : Tr (ℤ × ℤ) :=
  fold D ((0 : ℤ), (0 : ℤ)) fun i acc ↦ do
    let v ← read (.inl b) (off + i)
    let n := ((v - mean) * r) >>> 8
    let o ← read (.inr .dhy) (ooff + i)
    let dn := (o * g i) >>> 4
    pure (acc.1 + dn, acc.2 + n * dn)

/-- The last loop of `ln_bwd`. -/
def gradStore (b : WsBuf) (off ooff D : ℕ) (g : ℕ → ℤ) (dg db : ℕ) (mean r sd sn : ℤ) : Tr Unit :=
  loop D fun i ↦ do
    let v ← read (.inl b) (off + i)
    let n := ((v - mean) * r) >>> 8
    let dout ← read (.inr .dhy) (ooff + i)
    let dn := (dout * g i) >>> 4
    let dx := (r * (dn - sd - n * sn)) >>> 12
    write (.inr .dhy) (ooff + i) (clip16 dx)
    add (.inr .wgrad) (dg + i) ((dout * n) >>> 4)
    add (.inr .wgrad) (db + i) (dout * 16)

theorem lnBwd_eq (b : WsBuf) (off ooff D : ℕ) (g : ℕ → ℤ) (dg db : ℕ) :
    lnBwd b off ooff D g dg db = rowSums (.inl b) off D >>= fun s ↦
      gradSums b off ooff D g (lnMean D s) (lnRecip D s) >>= fun q ↦
        gradStore b off ooff D g dg db (lnMean D s) (lnRecip D s) (q.1.tdiv D)
          (q.2.tdiv (D * 65536)) :=
  rfl

/-- `ln_bwd` changes one row of `dhy`, besides the weight gradients. -/
theorem changesOnly_lnBwd (b : WsBuf) (off ooff D : ℕ) (g : ℕ → ℤ) (dg db : ℕ) :
    ChangesOnly {y | y.1 = .inr .wgrad ∨ y.1 = .inr .dhy ∧ ooff ≤ y.2 ∧ y.2 < ooff + D}
      (lnBwd b off ooff D g dg db) := by
  rw [lnBwd_eq]
  refine changesOnly_bind ?_ fun s ↦ changesOnly_bind ?_ fun q ↦ ?_
  · exact changesOnly_fold _ fun i acc _ ↦ changesOnly_bind (changesOnly_read _ _) fun v ↦
      changesOnly_pure _
  · exact changesOnly_fold _ fun i acc _ ↦ changesOnly_bind (changesOnly_read _ _) fun v ↦
      changesOnly_bind (changesOnly_read _ _) fun o ↦ changesOnly_pure _
  · refine changesOnly_loop fun i hi ↦ changesOnly_bind (changesOnly_read _ _) fun v ↦
      changesOnly_bind (changesOnly_read _ _) fun dout ↦ changesOnly_bind ?_ fun _ ↦
      changesOnly_bind ?_ fun _ ↦ ?_
    · exact changesOnly_write _ (Or.inr ⟨rfl, Nat.le_add_right _ _, Nat.add_lt_add_left hi _⟩)
    · exact changesOnly_add _ (Or.inl rfl)
    · exact changesOnly_add _ (Or.inl rfl)

/-- Without gains the gradients of the inputs are zero. -/
theorem lnBwd_zero_gain {b : WsBuf} {off ooff D : ℕ} {g : ℕ → ℤ} {dg db : ℕ}
    (hg : ∀ i < D, g i = 0) (m : Words TrainBuf ℤ) :
    ∀ i < D, (lnBwd b off ooff D g dg db m).words (.inr .dhy) (ooff + i) = 0 := by
  have hdn (i : ℕ) (hi : i < D) (o : ℤ) : (o * g i) >>> 4 = 0 := by
    rw [hg i hi, mul_zero]
    rfl
  have hsums (mean r : ℤ) : (gradSums b off ooff D g mean r m).words = m ∧
      (gradSums b off ooff D g mean r m).result = (0, 0) + ∑ _ ∈ Finset.range D, ((0, 0) : ℤ × ℤ) := by
    refine fold_sum (fun _ ↦ ((0, 0) : ℤ × ℤ)) fun i hi acc ↦ ⟨rfl, ?_⟩
    change (acc.1 + (m (.inr .dhy) (ooff + i) * g i) >>> 4,
      acc.2 + ((m (.inl b) (off + i) - mean) * r) >>> 8 * (m (.inr .dhy) (ooff + i) * g i) >>> 4) =
        acc + (0, 0)
    rw [hdn i hi, mul_zero]
    rfl
  have hstore (mean r : ℤ) : Triple (fun m' : Words TrainBuf ℤ ↦ ∀ j < 0, m' (.inr .dhy) (ooff + j) = 0)
      (gradStore b off ooff D g dg db mean r 0 0) fun _ m' ↦ ∀ j < D, m' (.inr .dhy) (ooff + j) = 0 := by
    refine triple_loop (fun i (m' : Words TrainBuf ℤ) ↦ ∀ j < i, m' (.inr .dhy) (ooff + j) = 0)
      fun i hi m' hm' j hj ↦ ?_
    change put m' (.inr .dhy) (ooff + i) (clip16 ((r * ((m' (.inr .dhy) (ooff + i) * g i) >>> 4 -
      (0 : ℤ) - ((m' (.inl b) (off + i) - mean) * r) >>> 8 * (0 : ℤ))) >>> 12)) (.inr .dhy)
      (ooff + j) = 0
    rw [hdn i hi, mul_zero, sub_zero, sub_zero, mul_zero]
    obtain hlt | rfl := Nat.lt_succ_iff_lt_or_eq.mp hj
    · rw [put_of_ne fun heq ↦ hlt.ne (Nat.add_left_cancel heq.2)]
      exact hm' j hlt
    · exact put_self ..
  rw [lnBwd_eq, bind_words, bind_words, rowSums_words]
  generalize lnMean D (rowSums (.inl b) off D m).result = mean
  generalize lnRecip D (rowSums (.inl b) off D m).result = r
  obtain ⟨hwords, hresult⟩ := hsums mean r
  have hzero : (gradSums b off ooff D g mean r m).result = (0, 0) := by
    rw [hresult, Finset.sum_const, Prod.mk_zero_zero, smul_zero, add_zero]
  rw [hwords, hzero, Int.zero_tdiv, Int.zero_tdiv]
  exact hstore mean r m fun _ h ↦ absurd h (Nat.not_lt_zero _)

/-- A layer norm without gains is not covered if a row behind the first has a gradient. -/
theorem LnArgs.not_covers {a : LnArgs} (hg : ∀ i < a.D, a.g i = 0) (hD : 0 < a.D) (hC : 1 < C)
    {m : Words TrainBuf ℤ} (hgrad : m (.inr .dhy) (a.ooff + a.D) ≠ 0) : ¬ a.Covers C m := by
  intro h
  have hrow := h.rows 1 hC 0 hD
  have hsecond : a.ooff + 1 * a.D + 0 = a.ooff + a.D := by rw [Nat.one_mul, Nat.add_zero]
  have hzero : (a.row 1 m).words (.inr .dhy) (a.ooff + 1 * a.D + 0) = 0 :=
    lnBwd_zero_gain hg m 0 hD
  rw [hzero, hsecond, LnArgs.call, changesOnly_lnBwd] at hrow
  · exact hgrad hrow
  · rintro (hbuf | ⟨-, -, hlt⟩)
    · exact absurd (Sum.inr.inj hbuf) (by decide)
    · exact absurd hlt (lt_irrefl _)

/-! ### A pass that leaves gradients in every row -/

/-- One update of a logit gradient. -/
def logitStep (tgt b : ℕ) (q cur : ℤ) : ℤ :=
  let cur := cur + (q - if b = tgt then 4096 else 0) >>> 2
  if 4096 < cur then 4096 else if cur < -4096 then -4096 else cur

theorem logitGrad_stored (t tgt : ℕ) (m : Words TrainBuf ℤ) :
    Stored (.inr .dlogits) (t * transVocab + ·)
      (fun b ↦ logitStep tgt b (m (.inl .scr) b) (m (.inr .dlogits) (t * transVocab + b)))
      transVocab m (logitGrad t tgt m).words := by
  refine loop_stores _ _ (fun _ _ _ hj heq ↦ hj.ne (Nat.add_left_cancel heq)) fun i _ m' hm' ↦ ?_
  have hscr : m' (.inl .scr) i = m (.inl .scr) i := congrFun (hm'.other (by decide)) i
  have hcur : m' (.inr .dlogits) (t * transVocab + i) = m (.inr .dlogits) (t * transVocab + i) :=
    hm'.elsewhere _ _ fun j hj heq ↦ hj.ne (Nat.add_left_cancel heq.2).symm
  rw [← hscr, ← hcur]
  simp only [bind_words, read_words, read_result, write_words, logitStep]

/-- What one position does. -/
def lossRow (x : Inputs) (t : ℕ) (bits : ℤ) : Tr ℤ := do
  inl (softmaxV (t * transVocab))
  let pr ← read (.inl .scr) (x.toks (t + 1))
  logitGrad t (x.toks (t + 1))
  let pr' ← read (.inl .scr) (x.toks (t + 2))
  logitGrad t (x.toks (t + 2))
  pure (bits + lossTerm pr + lossTerm pr')

theorem lossGrad_eq (p : Dims) (x : Inputs) : lossGrad p x = fold p.C 0 (lossRow x) := rfl

theorem lossRow_words (x : Inputs) (t : ℕ) (bits : ℤ) (m : Words TrainBuf ℤ) :
    (lossRow x t bits m).words = (logitGrad t (x.toks (t + 2)) (logitGrad t (x.toks (t + 1))
      (inl (softmaxV (t * transVocab)) m).words).words).words := by
  simp only [lossRow, bind_words, pure_words, read_words]

/-- Over logits of zeros with target `0` everywhere, the gradient of the logit of `0` comes out as
`-2040` in every row. -/
theorem lossGrad_zero {p : Dims} {x : Inputs} (htoks : ∀ t, x.toks t = 0) {m : Words TrainBuf ℤ}
    (hlogits : ∀ t < p.C, ∀ j < transVocab, m (.inl .logits) (t * transVocab + j) = 0)
    (hgrad : ∀ t < p.C, m (.inr .dlogits) (t * transVocab) = 0) :
    ∀ t < p.C, (lossGrad p x m).words (.inr .dlogits) (t * transVocab) = -2040 := by
  have h : Triple (fun m' : Words TrainBuf ℤ ↦
        (∀ t < p.C, ∀ j < transVocab, m' (.inl .logits) (t * transVocab + j) = 0) ∧
          ∀ t < p.C, m' (.inr .dlogits) (t * transVocab) = if t < 0 then -2040 else 0)
      (lossGrad p x) fun _ m' ↦
        (∀ t < p.C, ∀ j < transVocab, m' (.inl .logits) (t * transVocab + j) = 0) ∧
          ∀ t < p.C, m' (.inr .dlogits) (t * transVocab) = if t < p.C then -2040 else 0 := by
    rw [lossGrad_eq]
    refine triple_fold (fun n _ (m' : Words TrainBuf ℤ) ↦
      (∀ t < p.C, ∀ j < transVocab, m' (.inl .logits) (t * transVocab + j) = 0) ∧
        ∀ t < p.C, m' (.inr .dlogits) (t * transVocab) = if t < n then -2040 else 0) ?_
    rintro t ht bits m' ⟨hlog, hdl⟩
    have hsoft := softmaxV_zero (m := fun b ↦ m' (.inl b)) (hlog t ht)
    rw [lossRow_words, htoks, htoks]
    have hscr : (inl (softmaxV (t * transVocab)) m').words (.inl .scr) 0 = 16 := by
      rw [inl_words_left]
      exact hsoft.at_index 0 (by decide)
    have hlog' : (inl (softmaxV (t * transVocab)) m').words (.inl .logits) = m' (.inl .logits) := by
      rw [inl_words_left]
      exact hsoft.other (by decide)
    have hdl' := inl_words_right (softmaxV (t * transVocab)) m' .dlogits
    generalize (inl (softmaxV (t * transVocab)) m').words = m₁ at hscr hlog' hdl' ⊢
    have hfirst := logitGrad_stored t 0 m₁
    generalize (logitGrad t 0 m₁).words = m₂ at hfirst ⊢
    have hsecond := logitGrad_stored t 0 m₂
    generalize (logitGrad t 0 m₂).words = m₃ at hsecond ⊢
    constructor
    · intro t' ht' j hj
      rw [hsecond.other (by decide), hfirst.other (by decide), hlog']
      exact hlog t' ht' j hj
    · intro t' ht'
      by_cases hrow : t' = t
      · have hold := hdl t ht
        rw [if_neg (lt_irrefl t)] at hold
        have h₂ := hfirst.at_index 0 (by decide)
        have h₃ := hsecond.at_index 0 (by decide)
        have hscr₂ : m₂ (.inl .scr) 0 = 16 := by rw [hfirst.other (by decide), hscr]
        simp only [Nat.add_zero, hscr, hdl', hold] at h₂
        simp only [Nat.add_zero, hscr₂, h₂] at h₃
        rw [hrow, h₃, if_pos (Nat.lt_succ_self t)]
        decide
      · have hindex (j : ℕ) (hj : j < transVocab) : t' * transVocab ≠ t * transVocab + j := by
          simp only [transVocab] at hj ⊢
          omega
        rw [hsecond.elsewhere _ _ fun j hj heq ↦ hindex j hj heq.2,
          hfirst.elsewhere _ _ fun j hj heq ↦ hindex j hj heq.2, hdl', hdl t' ht']
        have hiff : t' < t ↔ t' < t + 1 := by omega
        simp only [hiff]
  intro t ht
  have hrow := (h m ⟨hlogits, fun t ht ↦ (hgrad t ht).trans (if_neg (Nat.not_lt_zero t)).symm⟩).2 t ht
  rw [if_pos ht] at hrow
  exact hrow

/-- Weights of the head that give every coordinate of a row the negative gradient of the logit of `0`. -/
def minusHead (c : TransCfg) (i : ℕ) : ℤ :=
  if oHead c ≤ i ∧ (i - oHead c) % transVocab = 0 then -1 else 0

/-- Buffers of zeros, with these weights in the blob. -/
def minusHeadWords (c : TransCfg) : Words TrainBuf ℤ := fun b i ↦
  if b = .inr .wblob then minusHead c i else 0

theorem typed_minusHeadWords (c : TransCfg) : Typed (minusHeadWords c) := by
  intro b i
  unfold minusHeadWords minusHead
  split_ifs with hb
  · rw [hb]
    exact ⟨by decide, by decide⟩
  · exact ⟨neg_nonpos.mpr (by positivity), by positivity⟩
  · exact ⟨neg_nonpos.mpr (by positivity), by positivity⟩

theorem headBack_minusHead {t k : ℕ} (hw : x.w = minusHead c) {m : Words TrainBuf ℤ}
    (hgrad : m (.inr .dlogits) (t * transVocab) = -2040) : (headBack c x t k m).result = 2040 := by
  rw [headBack, (backDot_reads ..).2, hw, Finset.sum_eq_single_of_mem 0]
  · rw [Nat.add_zero, Nat.add_zero, hgrad, minusHead, Nat.add_sub_cancel_left, Nat.mul_mod_left,
      if_pos ⟨Nat.le_add_right _ _, rfl⟩]
    rfl
  · exact Finset.mem_range.mpr (by decide)
  · intro j hj hne
    rw [Finset.mem_range] at hj
    rw [minusHead, Nat.add_sub_cancel_left, Nat.mul_comm, Nat.mul_add_mod, Nat.mod_eq_of_lt hj,
      if_neg fun h ↦ hne h.2, zero_mul]

/-- The two halves of `headGrad`. -/
def headRows (c : TransCfg) (p : Dims) (x : Inputs) : Tr Unit :=
  loop p.C fun t ↦ loop p.D fun k ↦ do
    let acc ← headBack c x t k
    write (.inr .dhy) (p.L * (p.C * p.D) + (t * p.D + k)) (clip16 (acc >>> 8))

def headWeights (c : TransCfg) (p : Dims) : Tr Unit :=
  loop p.C fun t ↦ loop p.D fun k ↦ do
    let fk ← read (.inl .h0) (p.L * (p.C * p.D) + (t * p.D + k))
    addRow transVocab (oHead c - transHdr + k * transVocab) fk fun j ↦
      read (.inr .dlogits) (t * transVocab + j)

theorem headGrad_eq (c : TransCfg) (p : Dims) (x : Inputs) :
    headGrad c p x = headRows c p x >>= fun _ ↦ headWeights c p :=
  rfl

theorem changesOnly_headWeights (c : TransCfg) (p : Dims) :
    ChangesOnly {y | y.1 = .inr .wgrad} (headWeights c p) :=
  changesOnly_loop fun _ _ ↦ changesOnly_loop fun _ _ ↦ changesOnly_bind (changesOnly_read _ _) fun v ↦
    changesOnly_addRow v (fun _ ↦ changesOnly_read _ _) fun _ _ ↦ rfl

theorem headGrad_minusHead {p : Dims} (hw : x.w = minusHead c) {m : Words TrainBuf ℤ}
    (hgrad : ∀ t < p.C, m (.inr .dlogits) (t * transVocab) = -2040) : ∀ t < p.C, ∀ k < p.D,
      (headGrad c p x m).words (.inr .dhy) (p.L * (p.C * p.D) + (t * p.D + k)) = 7 := by
  have hrows : Stored (.inr .dhy) (p.L * (p.C * p.D) + ·) (fun _ ↦ (7 : ℤ)) (p.C * p.D) m
      (headRows c p x m).words := by
    refine matrix_stores (fun _ _ ↦ (7 : ℤ)) fun t ht k _ m' hm' ↦ ?_
    have hdl : m' (.inr .dlogits) (t * transVocab) = -2040 := by
      rw [hm'.other (by decide)]
      exact hgrad t ht
    have hwords : (headBack c x t k m').words = m' := (backDot_reads ..).1
    rw [bind_words, headBack_minusHead hw hdl, hwords, write_words]
    rfl
  intro t ht k hk
  rw [headGrad_eq, bind_words, changesOnly_headWeights]
  · exact hrows.entry (fun _ _ ↦ (7 : ℤ)) ht hk
  · exact fun hbuf ↦ absurd (Sum.inr.inj hbuf) (by decide)

/-- With these weights every row behind the final layer norm gets gradients. -/
theorem passFront_minusHead (hw : x.w = minusHead c) (htoks : ∀ t, x.toks t = 0)
    (m : Words TrainBuf ℤ) : ∀ t < C, ∀ k < c.dModel.toNat,
      (passFront c C x m).words (.inr .dhy)
        (c.nLayers.toNat * (C * c.dModel.toNat) + (t * c.dModel.toNat + k)) = 7 := by
  have hfin (i : ℕ) (hi : i < 2 * c.dModel.toNat) : minusHead c (oFinlnG c + i) = 0 := by
    refine if_neg fun h ↦ ?_
    have hhead : oHead c = oFinlnG c + 2 * c.dModel.toNat := by
      rw [oHead, oFinlnB, Nat.two_mul, Nat.add_assoc]
    omega
  have hg (i : ℕ) (hi : i < c.dModel.toNat) : x.w (oFinlnG c + i) = 0 := by
    rw [hw]
    exact hfin i (by omega)
  have hb (i : ℕ) (hi : i < c.dModel.toNat) : x.w (oFinlnB c + i) = 0 := by
    rw [hw, oFinlnB, Nat.add_assoc]
    exact hfin _ (by omega)
  simp only [passFront, bind_words, pure_words]
  generalize hzero : (zeroGrads c (dims c C) m).words = m₁
  have hdl (t : ℕ) (ht : t < C) : m₁ (.inr .dlogits) (t * transVocab) = 0 := by
    rw [← hzero]
    simp only [zeroGrads, bind_words]
    have hclear := (clear_stored (.inr .dlogits) 0 ((dims c C).C * transVocab) (clear (.inr .embgrad) 0
      (transVocab * (dims c C).D) (clear (.inr .wgrad) 0 (weightsBytesOf c - transHdr) m).words).words
      ).at_index (t * transVocab) (Nat.mul_lt_mul_of_pos_right ht (by decide))
    simp only [Nat.zero_add] at hclear
    exact hclear
  have hlogits : ∀ t < C, ∀ j < transVocab,
      (inl (transForward c C x) m₁).words (.inl .logits) (t * transVocab + j) = 0 := by
    rw [inl_words_left, transForward, bind_words, bind_words]
    exact outputHead_zero (p := dims c C) hg hb _
  have hdl' := inl_words_right (transForward c C x) m₁ .dlogits
  generalize (inl (transForward c C x) m₁).words = m₂ at hlogits hdl' ⊢
  refine headGrad_minusHead (p := dims c C) hw
    (lossGrad_zero (p := dims c C) htoks hlogits fun t ht ↦ ?_)
  rw [hdl']
  exact hdl t ht

theorem not_lnCoversAll {C : ℕ} (hC : 1 < C) (hmodel : c.dModel.toNat ≠ 0) : ¬ LnCoversAll c C := by
  intro h
  have hcovers := h (fun _ ↦ 0) (minusHeadWords c) (typed_minusHeadWords c) .final trivial
  have hw : (passInputs (fun _ ↦ 0) (minusHeadWords c)).w = minusHead c := rfl
  have hgrad := passFront_minusHead hw (fun _ ↦ rfl) (minusHeadWords c) 1 hC 0
    (Nat.pos_of_ne_zero hmodel)
  refine LnArgs.not_covers (fun i hi ↦ ?_) (Nat.pos_of_ne_zero hmodel) hC (fun hzero ↦ ?_) hcovers
  · exact if_neg fun hhead ↦ by
      have hoff : oHead c = oFinlnG c + 2 * c.dModel.toNat := by
        rw [oHead, oFinlnB, Nat.two_mul, Nat.add_assoc]
      have hi' : i < c.dModel.toNat := hi
      omega
  · have hbefore : (LnSite.final.before c C (passInputs (fun _ ↦ 0) (minusHeadWords c))
        (minusHeadWords c)).words =
          (passFront c C (passInputs (fun _ ↦ 0) (minusHeadWords c)) (minusHeadWords c)).words := by
      simp only [LnSite.before, bind_words, pure_words]
    rw [Nat.one_mul, Nat.add_zero, ← hbefore] at hgrad
    exact absurd (hgrad.symm.trans hzero) (by decide)

/-- The layer norms of a pass are gone through with all their rows exactly if there is only one row,
or rows have no coordinates. -/
theorem lnCoversAll_iff (c : TransCfg) {C : ℕ} (hC : 1 ≤ C) :
    LnCoversAll c C ↔ C = 1 ∨ c.dModel = 0 := by
  constructor
  · intro h
    by_contra hno
    obtain ⟨hone, hmodel⟩ := not_or.mp hno
    exact not_lnCoversAll (by omega) (fun hzero ↦ hmodel (UInt16.toNat_inj.mp hzero)) h
  · rintro (rfl | hmodel) toks m - site -
    · exact LnArgs.covers_one _ _
    · have hD : c.dModel.toNat = 0 := by rw [hmodel]; rfl
      refine LnArgs.covers_empty ?_ C _
      cases site
      · exact hD
      · exact hD
      · exact hD

/-- With one token the layer norms are covered. -/
theorem lnCoversAll_iff_specCfg_one : LnCoversAll specCfg 1 :=
  (lnCoversAll_iff specCfg (Nat.le_refl 1)).mpr (Or.inl rfl)

/-- With two they are not. -/
theorem not_lnCoversAll_specCfg_two : ¬ LnCoversAll specCfg 2 :=
  not_lnCoversAll (by decide) (by decide)

end NoOsKernel.Trans
