import NoOsKernel.Noc.Log2
import NoOsKernel.Trans.Forward
import NoOsKernel.Trans.Layout

/-!
# The backward pass

`kernel/noc/trans.c`: `train_pass` with what it calls, as a program over the buffers of the forward
pass, those `alloc_train` adds and the blob. The products and sums of the source are in 64 bits, which
none of them exceeds. The blob is read as the weights `x.w` and changes only in the updates at the
end.
-/

set_option autoImplicit false
set_option relaxedAutoImplicit false

namespace NoOsKernel.Trans

open Lib Lib.Prog

/-! ### Buffers -/

/-- The buffers of the backward pass, and the blob. -/
inductive BackBuf
  | bwdLay | dhy | dlogits | accg | wgrad | embgrad | wblob
  deriving DecidableEq, Repr

/-- All buffers of a training pass. -/
abbrev TrainBuf := WsBuf ⊕ BackBuf

abbrev Tr := Prog TrainBuf ℤ

/-- The width of the words of a buffer. -/
def width : TrainBuf → ℕ
  | .inl _ => 16
  | .inr .wblob => 8
  | .inr .accg => 64
  | .inr .wgrad => 64
  | .inr .embgrad => 64
  | .inr _ => 16

/-- The words are signed integers of their width. -/
def Typed (m : Words TrainBuf ℤ) : Prop :=
  ∀ b i, -2 ^ (width b - 1) ≤ m b i ∧ m b i < 2 ^ (width b - 1)

/-- `clip16` -/
def clip16 (v : ℤ) : ℤ := if 32767 < v then 32767 else if v < -32768 then -32768 else v

/-- `gelu_dtab` -/
def geluDtab (k : ℕ) : ℤ :=
  let x : ℤ := k - 2048
  let sx := (x * 6971).tdiv 4096
  let az := if 2048 < |sx| then 2048 else |sx|
  let e : ℤ := expmTab az.toNat
  let sig := if 0 ≤ sx then (4096 * 4096 : ℤ).tdiv (e + 4096) else (4096 * e).tdiv (e + 4096)
  let om := 4096 - sig
  let term := (sx * om).tdiv (256 * 4096)
  let d := sig + sig * term
  if d < 0 then 0 else if 65535 < d then 65535 else d

/-- `b[i] += v` -/
def add (b : TrainBuf) (i : ℕ) (v : ℤ) : Tr Unit := do
  let a ← read b i
  write b i (a + v)

/-- The first `n` words of a buffer from `off` on are cleared. -/
def clear (b : TrainBuf) (off n : ℕ) : Tr Unit := loop n fun i ↦ write b (off + i) 0

/-- The gradients at `b` from `off` on against `n` weights. -/
def backDot (x : Inputs) (n : ℕ) (wi : ℕ → ℕ) (b : TrainBuf) (off : ℕ) : Tr ℤ :=
  fold n 0 fun j acc ↦ do
    let g ← read b (off + j)
    pure (acc + x.w (wi j) * g)

/-- `n` gradients at `g`, each times `v`, are added to the weight gradients from `off` on. -/
def addRow (n off : ℕ) (v : ℤ) (g : ℕ → Tr ℤ) : Tr Unit :=
  if v ≠ 0 then loop n fun j ↦ do
    let d ← g j
    add (.inr .wgrad) (off + j) (d * v)
  else pure ()

/-! ### Loss -/

/-- A probability of the current row is charged to `bits`. -/
def lossTerm (pr : ℤ) : ℤ :=
  if 1 ≤ pr then (12000 - (Noc.log2Mbit pr.toNat : ℤ)) % 2 ^ 32 else 16000

/-- The logit gradients of row `t` for the target `tgt`. -/
def logitGrad (t tgt : ℕ) : Tr Unit :=
  loop transVocab fun b ↦ do
    let q ← read (.inl .scr) b
    let cur ← read (.inr .dlogits) (t * transVocab + b)
    let cur := cur + (q - if b = tgt then 4096 else 0) >>> 2
    write (.inr .dlogits) (t * transVocab + b)
      (if 4096 < cur then 4096 else if cur < -4096 then -4096 else cur)

/-- Cross-entropy of every position against its two targets; returns `bits`. -/
def lossGrad (p : Dims) (x : Inputs) : Tr ℤ :=
  fold p.C 0 fun t bits ↦ do
    inl (softmaxV (t * transVocab))
    let pr ← read (.inl .scr) (x.toks (t + 1))
    logitGrad t (x.toks (t + 1))
    let pr' ← read (.inl .scr) (x.toks (t + 2))
    logitGrad t (x.toks (t + 2))
    pure (bits + lossTerm pr + lossTerm pr')

/-! ### Layer norm -/

/-- `ln_bwd` of one row: its input is in `b` from `off` on, its gradients in `dhy` from `ooff` on, and
gain and bias are charged to the weight gradients from `dg` and `db` on. -/
def lnBwd (b : WsBuf) (off ooff D : ℕ) (g : ℕ → ℤ) (dg db : ℕ) : Tr Unit := do
  let (sum, sq) ← fold D ((0 : ℤ), (0 : ℤ)) fun i acc ↦ do
    let v ← read (.inl b) (off + i)
    pure (acc.1 + v, acc.2 + v * v)
  let mean := sum.tdiv D
  let var := sq.tdiv D - mean * mean
  let r := rsqrt24 (BitVec.ofInt 32 (if 0 < var then var else 1))
  let (sdn, snn) ← fold D ((0 : ℤ), (0 : ℤ)) fun i acc ↦ do
    let v ← read (.inl b) (off + i)
    let n := ((v - mean) * r) >>> 8
    let o ← read (.inr .dhy) (ooff + i)
    let dn := (o * g i) >>> 4
    pure (acc.1 + dn, acc.2 + n * dn)
  let sd := sdn.tdiv D
  let sn := snn.tdiv (D * 65536)
  loop D fun i ↦ do
    let v ← read (.inl b) (off + i)
    let n := ((v - mean) * r) >>> 8
    let dout ← read (.inr .dhy) (ooff + i)
    let dn := (dout * g i) >>> 4
    let dx := (r * (dn - sd - n * sn)) >>> 12
    write (.inr .dhy) (ooff + i) (clip16 dx)
    add (.inr .wgrad) (dg + i) ((dout * n) >>> 4)
    add (.inr .wgrad) (db + i) (dout * 16)

/-! ### Output head -/

/-- The gradient of coordinate `k` of the final row `t`, before the shift. -/
def headBack (c : TransCfg) (x : Inputs) (t k : ℕ) : Tr ℤ :=
  backDot x transVocab (fun j ↦ oHead c + (k * transVocab + j)) (.inr .dlogits) (t * transVocab)

/-- The gradients of the final rows and of the head. -/
def headGrad (c : TransCfg) (p : Dims) (x : Inputs) : Tr Unit := do
  loop p.C fun t ↦ loop p.D fun k ↦ do
    let acc ← headBack c x t k
    write (.inr .dhy) (p.L * (p.C * p.D) + (t * p.D + k)) (clip16 (acc >>> 8))
  loop p.C fun t ↦ loop p.D fun k ↦ do
    let fk ← read (.inl .h0) (p.L * (p.C * p.D) + (t * p.D + k))
    addRow transVocab (oHead c - transHdr + k * transVocab) fk fun j ↦
      read (.inr .dlogits) (t * transVocab + j)

/-- The call of `ln_bwd` for the final layer norm. -/
def finalLnBack (c : TransCfg) (p : Dims) (x : Inputs) : Tr Unit :=
  lnBwd .yf (p.L * (p.C * p.D)) (p.L * (p.C * p.D)) p.D (fun i ↦ x.w (oFinlnG c + i))
    (oFinlnG c - transHdr) (oFinlnB c - transHdr)

/-! ### Feed-forward block -/

/-- The gradient of activation `j` of token `t`, before the shift. -/
def wdBack (c : TransCfg) (p : Dims) (x : Inputs) (l t j : ℕ) : Tr ℤ :=
  backDot x p.D (fun k ↦ layOff c l + oWdn c + (k * p.D + j)) (.inr .dhy)
    ((l + 1) * (p.C * p.D) + t * p.D)

/-- The gradient of coordinate `k` of the normalised row `t`, before the shift. -/
def wuBack (c : TransCfg) (p : Dims) (x : Inputs) (l t k : ℕ) : Tr ℤ :=
  backDot x p.F (fun j ↦ layOff c l + oWup c + (k * p.F + j)) (.inl .gact)
    (l * (p.C * p.F) + t * p.F)

/-- The gradients of `Wd`. -/
def wdGrad (c : TransCfg) (p : Dims) (l : ℕ) : Tr Unit :=
  loop p.C fun t ↦ loop p.F fun k ↦ do
    let gk ← read (.inl .gact) (l * (p.C * p.F) + (t * p.F + k))
    addRow p.D (layOff c l - transHdr + oWdn c + k * p.D) gk fun j ↦
      read (.inr .dhy) ((l + 1) * (p.C * p.D) + (t * p.D + j))

/-- The gradients behind the activations, which they replace. -/
def geluBack (c : TransCfg) (p : Dims) (x : Inputs) (l : ℕ) : Tr Unit :=
  loop p.C fun t ↦ loop p.F fun j ↦ do
    let acc ← wdBack c p x l t j
    let pre ← backDot x p.D (fun k ↦ layOff c l + oWup c + (k * p.F + j)) (.inl .lnout)
      (l * (2 * p.C * p.D) + p.C * p.D + t * p.D)
    let pidx := toI32 (pre >>> 8)
    let pidx := if 2047 < pidx then 2047 else if pidx < -2048 then -2048 else pidx
    write (.inl .gact) (l * (p.C * p.F) + (t * p.F + j))
      (clip16 ((acc * geluDtab (pidx + 2048).toNat) >>> 12))

/-- The gradients of the normalised rows. -/
def ffnIn (c : TransCfg) (p : Dims) (x : Inputs) (l : ℕ) : Tr Unit :=
  loop p.C fun t ↦ loop p.D fun k ↦ do
    let acc ← wuBack c p x l t k
    write (.inr .dhy) (l * (p.C * p.D) + (t * p.D + k)) (clip16 (acc >>> 8))

/-- The gradients of `Wu`. -/
def wuGrad (c : TransCfg) (p : Dims) (l : ℕ) : Tr Unit :=
  loop p.C fun t ↦ loop p.D fun k ↦ do
    let lk ← read (.inl .lnout) (l * (2 * p.C * p.D) + p.C * p.D + (t * p.D + k))
    addRow p.F (layOff c l - transHdr + oWup c + k * p.F) lk fun j ↦
      read (.inl .gact) (l * (p.C * p.F) + (t * p.F + j))

/-- The feed-forward block up to its layer norm. -/
def ffnBack (c : TransCfg) (p : Dims) (x : Inputs) (l : ℕ) : Tr Unit := do
  wdGrad c p l
  geluBack c p x l
  ffnIn c p x l
  wuGrad c p l

/-- The call of `ln_bwd` for the second layer norm of a layer. -/
def ln2Back (c : TransCfg) (p : Dims) (x : Inputs) (l : ℕ) : Tr Unit :=
  lnBwd .yf (l * (p.C * p.D)) (l * (p.C * p.D)) p.D (fun i ↦ x.w (layOff c l + oLn2g c + i))
    (layOff c l - transHdr + oLn2g c) (layOff c l - transHdr + oLn2b c)

/-- The residual path: the gradients behind a layer and those of its layer norm, into `dst`. -/
def residual (p : Dims) (l dst : ℕ) : Tr Unit :=
  loop (p.C * p.D) fun t ↦ do
    let a ← read (.inr .dhy) ((l + 1) * (p.C * p.D) + t)
    let b ← read (.inr .dhy) (l * (p.C * p.D) + t)
    write (.inr .dhy) (dst * (p.C * p.D) + t) (clip16 (a + b))

/-! ### Attention -/

namespace Dims

variable (p : Dims)

/-- The offsets of `dScores` and `dA` behind `dQ`, `dK` and `dV` in the backward block of a layer. -/
def offDSc : ℕ := p.C * p.D * 3
def offDA : ℕ := p.offDSc + p.H * p.C * p.C

/-- Where head `hd` has its coordinate `o` in row `i`. -/
def col (hd i o : ℕ) : ℕ := i * p.D + (hd * (p.D / p.H) + o)

end Dims

/-- The gradient of coordinate `k` of the attention output of token `t`, before the shift. -/
def woBack (c : TransCfg) (p : Dims) (x : Inputs) (l t k : ℕ) : Tr ℤ :=
  backDot x p.D (fun j ↦ layOff c l + oWo c + (k * p.D + j)) (.inr .dhy)
    ((l + 1) * (p.C * p.D) + t * p.D)

/-- The gradients of the attention output and of `Wo`. -/
def woGrad (c : TransCfg) (p : Dims) (x : Inputs) (l : ℕ) : Tr Unit := do
  loop p.C fun t ↦ loop p.D fun k ↦ do
    let acc ← woBack c p x l t k
    write (.inr .bwdLay) (l * p.per + (p.offDA + (t * p.D + k))) (clip16 (acc >>> 8))
  loop p.C fun t ↦ loop p.D fun k ↦ do
    let ak ← read (.inl .fwdLay) (l * p.per + (p.offA + (t * p.D + k)))
    addRow p.D (layOff c l - transHdr + oWo c + k * p.D) ak fun j ↦
      read (.inr .dhy) ((l + 1) * (p.C * p.D) + (t * p.D + j))

/-- The gradients of the scores of row `i` under head `hd`. -/
def scoreBack (p : Dims) (l hd i : ℕ) : Tr Unit := do
  let dpsum ← fold (i + 1) (0 : ℤ) fun j dpsum ↦ do
    let acc ← fold (p.D / p.H) (0 : ℤ) fun o acc ↦ do
      let a ← read (.inr .bwdLay) (l * p.per + (p.offDA + p.col hd i o))
      let v ← read (.inl .fwdLay) (l * p.per + (p.offV + p.col hd j o))
      pure (acc + a * v)
    write (.inl .scr) j (clip16 (acc >>> 12))
    let d ← read (.inl .scr) j
    let s ← read (.inl .fwdLay) (p.at (l * p.per) hd i j)
    pure (dpsum + d * s)
  let dpsum := dpsum >>> 12
  loop (i + 1) fun j ↦ do
    let s ← read (.inl .fwdLay) (p.at (l * p.per) hd i j)
    let d ← read (.inl .scr) j
    write (.inr .bwdLay) (l * p.per + (p.offDSc + (hd * p.C * p.C + (i * p.C + j))))
      (clip16 (s * (d - dpsum)))

/-- The gradients of `Q`. -/
def queryGrad (p : Dims) (l : ℕ) : Tr Unit := do
  clear (.inr .accg) 0 (p.C * p.D)
  loop p.H fun hd ↦ loop p.C fun i ↦ loop (i + 1) fun j ↦ do
    let ds ← read (.inr .bwdLay) (l * p.per + (p.offDSc + (hd * p.C * p.C + (i * p.C + j))))
    if ds ≠ 0 then loop (p.D / p.H) fun o ↦ do
      let k ← read (.inl .fwdLay) (l * p.per + (p.offK + p.col hd j o))
      add (.inr .accg) (p.col hd i o) (ds * k)
      let q ← read (.inl .fwdLay) (l * p.per + p.col hd i o)
      add (.inr .accg) (p.col hd j o) (ds * q)
    else pure ()
  loop (p.C * p.D) fun t ↦ do
    let a ← read (.inr .accg) t
    write (.inr .bwdLay) (l * p.per + t) (clip16 (a >>> 11))

/-- The gradients of `V`. -/
def valueGrad (p : Dims) (l : ℕ) : Tr Unit := do
  clear (.inr .accg) 0 (p.C * p.D)
  loop p.H fun hd ↦ loop p.C fun i ↦ loop (i + 1) fun j ↦ do
    let pij ← read (.inl .fwdLay) (p.at (l * p.per) hd i j)
    if pij ≠ 0 then loop (p.D / p.H) fun o ↦ do
      let a ← read (.inr .bwdLay) (l * p.per + (p.offDA + p.col hd i o))
      add (.inr .accg) (p.col hd j o) (pij * a)
    else pure ()
  loop (p.C * p.D) fun t ↦ do
    let a ← read (.inr .accg) t
    write (.inr .bwdLay) (l * p.per + (p.offV + t)) (clip16 (a >>> 12))

/-- The gradient of coordinate `k` of the normalised row `t` through the three projections, before
the shift. -/
def qkvBack (c : TransCfg) (p : Dims) (x : Inputs) (l t k : ℕ) : Tr ℤ :=
  fold p.D 0 fun j acc ↦ do
    let dq ← read (.inr .bwdLay) (l * p.per + (t * p.D + j))
    let dk ← read (.inr .bwdLay) (l * p.per + (p.offK + (t * p.D + j)))
    let dv ← read (.inr .bwdLay) (l * p.per + (p.offV + (t * p.D + j)))
    pure (acc + (x.w (layOff c l + (k * p.D + j)) * dq +
      x.w (layOff c l + oWk c + (k * p.D + j)) * dk + x.w (layOff c l + oWv c + (k * p.D + j)) * dv))

/-- The gradients of the normalised rows. -/
def attnIn (c : TransCfg) (p : Dims) (x : Inputs) (l : ℕ) : Tr Unit :=
  loop p.C fun t ↦ loop p.D fun k ↦ do
    let acc ← qkvBack c p x l t k
    write (.inr .dhy) (l * (p.C * p.D) + (t * p.D + k)) (clip16 (acc >>> 8))

/-- The gradients of the three projections. -/
def qkvGrad (c : TransCfg) (p : Dims) (l : ℕ) : Tr Unit :=
  loop p.C fun t ↦ loop p.D fun k ↦ do
    let lk ← read (.inl .lnout) (l * (2 * p.C * p.D) + (t * p.D + k))
    if lk ≠ 0 then loop p.D fun j ↦ do
      let dq ← read (.inr .bwdLay) (l * p.per + (t * p.D + j))
      let dk ← read (.inr .bwdLay) (l * p.per + (p.offK + (t * p.D + j)))
      let dv ← read (.inr .bwdLay) (l * p.per + (p.offV + (t * p.D + j)))
      add (.inr .wgrad) (layOff c l - transHdr + (k * p.D + j)) (dq * lk)
      add (.inr .wgrad) (layOff c l - transHdr + oWk c + (k * p.D + j)) (dk * lk)
      add (.inr .wgrad) (layOff c l - transHdr + oWv c + (k * p.D + j)) (dv * lk)
    else pure ()

/-- The attention block from the residual behind it to its layer norm. -/
def attnBack (c : TransCfg) (p : Dims) (x : Inputs) (l : ℕ) : Tr Unit := do
  residual p l (l + 1)
  woGrad c p x l
  loop p.H fun hd ↦ loop p.C fun i ↦ scoreBack p l hd i
  queryGrad p l
  valueGrad p l
  attnIn c p x l
  qkvGrad c p l

/-- The call of `ln_bwd` for the first layer norm of a layer. -/
def ln1Back (c : TransCfg) (p : Dims) (x : Inputs) (l : ℕ) : Tr Unit :=
  lnBwd .h0 (l * (p.C * p.D)) (l * (p.C * p.D)) p.D (fun i ↦ x.w (layOff c l + oLn1g c + i))
    (layOff c l - transHdr + oLn1g c) (layOff c l - transHdr + oLn1b c)

/-- The backward pass through layer `l`. -/
def layerBack (c : TransCfg) (p : Dims) (x : Inputs) (l : ℕ) : Tr Unit := do
  ffnBack c p x l
  ln2Back c p x l
  attnBack c p x l
  ln1Back c p x l
  residual p l l

/-! ### Embedding and updates -/

/-- The gradients of the embedding. -/
def embedBack (p : Dims) (x : Inputs) : Tr Unit :=
  loop p.C fun t ↦ loop p.D fun j ↦ do
    let d ← read (.inr .dhy) (t * p.D + j)
    add (.inr .embgrad) (x.toks t * p.D + j) (d * 16)

/-- The shift of `upd_blob`: how often `m` is halved until it is at most `2`. -/
def updShift (m : ℕ) : ℕ := if 2 < m then updShift (m / 2) + 1 else 0
termination_by m

/-- `upd_blob` of `count` weights from `woff` on, with the gradients at `b` from `goff` on. -/
def updBlob (woff : ℕ) (b : TrainBuf) (goff count : ℕ) : Tr Unit := do
  let m ← fold count (1 : ℤ) fun i m ↦ do
    let a ← read b (goff + i)
    pure (if m < |a| then |a| else m)
  let sh := updShift m.toNat
  loop count fun i ↦ do
    let g ← read b (goff + i)
    let u := g >>> sh
    let u := if 3 < u then 3 else if u < -3 then -3 else u
    let w ← read (.inr .wblob) (woff + i)
    let v := w - u
    write (.inr .wblob) (woff + i) (if 127 < v then 127 else if v < -128 then -128 else v)

/-- The update of a tensor behind the header, with its part of `wgrad`. -/
def updTensor (woff count : ℕ) : Tr Unit := updBlob woff (.inr .wgrad) (woff - transHdr) count

/-- The updates of the tensors of layer `l`. -/
def updLayer (c : TransCfg) (p : Dims) (l : ℕ) : Tr Unit := do
  updTensor (layOff c l) (p.D * p.D)
  updTensor (layOff c l + oWk c) (p.D * p.D)
  updTensor (layOff c l + oWv c) (p.D * p.D)
  updTensor (layOff c l + oWo c) (p.D * p.D)
  updTensor (layOff c l + oLn1g c) p.D
  updTensor (layOff c l + oLn1b c) p.D
  updTensor (layOff c l + oWup c) (p.D * p.F)
  updTensor (layOff c l + oWdn c) (p.F * p.D)
  updTensor (layOff c l + oLn2g c) p.D
  updTensor (layOff c l + oLn2b c) p.D

/-- The updates of all tensors. -/
def updAll (c : TransCfg) (p : Dims) : Tr Unit := do
  updBlob transHdr (.inr .embgrad) 0 (transVocab * p.D)
  updTensor (oHead c) (transVocab * p.D)
  loop p.L fun l ↦ updLayer c p l
  updTensor (oFinlnG c) p.D
  updTensor (oFinlnB c) p.D

/-! ### The pass -/

/-- The gradient accumulators are cleared. -/
def zeroGrads (c : TransCfg) (p : Dims) : Tr Unit := do
  clear (.inr .wgrad) 0 (weightsBytesOf c - transHdr)
  clear (.inr .embgrad) 0 (transVocab * p.D)
  clear (.inr .dlogits) 0 (p.C * transVocab)

/-- Forward pass, loss and the gradients behind the final layer norm; returns `bits`. -/
def passFront (c : TransCfg) (C : ℕ) (x : Inputs) : Tr ℤ := do
  zeroGrads c (dims c C)
  inl (transForward c C x)
  let bits ← lossGrad (dims c C) x
  headGrad c (dims c C) x
  pure bits

/-- The last `n` layers, from the last one down. -/
def layersBack (c : TransCfg) (C : ℕ) (x : Inputs) (n : ℕ) : Tr Unit :=
  loop n fun k ↦ layerBack c (dims c C) x ((dims c C).L - 1 - k)

/-- `train_pass` with the weights `x.w`; returns the new `last_loss_mbit`, if there is one. -/
def passWith (c : TransCfg) (C : ℕ) (x : Inputs) : Tr (Option ℤ) := do
  let bits ← passFront c C x
  finalLnBack c (dims c C) x
  layersBack c C x (dims c C).L
  embedBack (dims c C) x
  updAll c (dims c C)
  pure (if C = 0 then none else some (bits / (2 * C) % 2 ^ 32))

/-- `train_pass`: the weights are those in the blob. -/
def trainPassFull (c : TransCfg) (C : ℕ) (toks : ℕ → ℕ) : Tr (Option ℤ) := fun m ↦
  passWith c C ⟨m (.inr .wblob), toks, true⟩ m

end NoOsKernel.Trans
