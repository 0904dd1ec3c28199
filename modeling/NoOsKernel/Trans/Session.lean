import NoOsKernel.Trans.Autotune
import NoOsKernel.Lib.Memory
import NoOsKernel.Lib.Runs

/-!
# Sessions: degradation, reconfiguration and the weight blob

`kernel/noc/trans.c`: `degrade` shrinks a configuration until it fits the budgets, `alloc_blob`
makes room for the weights and writes the header in front of them, and `trans_config` and
`trans_set_act_cap` change the live configuration through both.

Every bound of the configuration survives, except for one: `degrade` halves a context above
`TRANS_CTX_MIN` without looking at the result, so a context of 17 to 31 ends up below the minimum
(`LateHalf`).
-/

set_option autoImplicit false
set_option relaxedAutoImplicit false

namespace NoOsKernel.Trans

open Lib

/-- `TRANS_D_MIN`. -/
def transDMin : ℕ := 16

/-- `TRANS_LAYERS_MIN`. -/
def transLayersMin : ℕ := 1

/-- `TRANS_CTX_MIN`. -/
def transCtxMin : ℕ := 16

/-- `TRANS_VOCAB`. -/
def transVocab : ℕ := 256

/-! ### `degrade` -/

/-- One halving of `degrade`; `none` when nothing is left to halve. The conditional in the source's
assignment to `ctx` repeats the test around it, so its second arm is never taken. -/
def shrink (c : TransCfg) : Option TransCfg :=
  if transCtxMin < c.ctx.toNat then some { c with ctx := c.ctx / 2 }
  else if c.dModel.toNat < c.dFf.toNat then some { c with dFf := c.dFf / 2 }
  else if transLayersMin < c.nLayers.toNat then some { c with nLayers := c.nLayers / 2 }
  else if transDMin < c.dModel.toNat then
    let d := c.dModel / 2
    some { c with dModel := d, dFf := 4 * d, nHeads := if 8 ≤ d.toNat then 8 else d }
  else none

@[simp] theorem toNat_half (x : UInt16) : (x / 2).toNat = x.toNat / 2 := UInt16.toNat_div x 2

/-- What a halving makes smaller: the model width, or else one of the others. -/
theorem shrink_decreases {c c' : TransCfg} (hshrink : shrink c = some c') :
    c'.dModel.toNat < c.dModel.toNat ∨ c'.dModel = c.dModel ∧
      c'.ctx.toNat + c'.dFf.toNat + c'.nLayers.toNat <
        c.ctx.toNat + c.dFf.toNat + c.nLayers.toNat := by
  unfold shrink at hshrink
  split_ifs at hshrink with hctx hff hlayers hmodel
  · cases hshrink
    refine .inr ⟨rfl, ?_⟩
    simp only [toNat_half]
    omega
  · cases hshrink
    refine .inr ⟨rfl, ?_⟩
    simp only [toNat_half]
    omega
  · cases hshrink
    refine .inr ⟨rfl, ?_⟩
    simp only [toNat_half]
    omega
  · cases hshrink
    refine .inl ?_
    simp only [toNat_half]
    omega

/-- `degrade`: whether a fitting configuration was reached, and the last one tried. -/
def degrade (b : Budgets) (c : TransCfg) : Bool × TransCfg :=
  if fits b c then (true, c)
  else
    match _hshrink : shrink c with
    | some c' => degrade b c'
    | none => (false, c)
termination_by (c.dModel.toNat, c.ctx.toNat + c.dFf.toNat + c.nLayers.toNat)
decreasing_by
  obtain hmodel | ⟨hsame, hless⟩ := shrink_decreases _hshrink
  · exact Prod.Lex.left _ _ hmodel
  · rw [hsame]
    exact Prod.Lex.right _ hless

/-! ### The weight blob -/

/-- The blob under construction and the state of the generator. -/
structure Weights where
  blob : Mem
  rng : BitVec 64

/-- `lcg` -/
def lcg (rng : BitVec 64) : BitVec 64 × BitVec 64 :=
  let rng := rng * 6364136223846793005 + 1442695040888963407
  (rng >>> 33, rng)

def Weights.put (w : Weights) (k : ℕ) (v : Byte) : Weights :=
  { w with blob := Function.update w.blob k v }

/-- `wb[k] = rndi8()` -/
def Weights.putRnd (w : Weights) (k : ℕ) : Weights :=
  let (v, rng) := lcg w.rng
  ⟨Function.update w.blob k (BitVec.ofInt 8 ((v.toNat % 65 : ℕ) - 32)), rng⟩

/-- A counting loop over the weights. -/
def Weights.loop (n : ℕ) (body : ℕ → Weights → Weights) (w : Weights) : Weights :=
  (List.range n).foldl (fun w i ↦ body i w) w

/-- `lay_off` -/
def layOff (c : TransCfg) (l : ℕ) : ℕ :=
  transHdr + c.vocab.toNat * c.dModel.toNat + l * laySize c

/-- `O_LN1G` -/
def oLn1g (c : TransCfg) : ℕ := 4 * (c.dModel.toNat * c.dModel.toNat)

/-- `O_LN1B` -/
def oLn1b (c : TransCfg) : ℕ := oLn1g c + c.dModel.toNat

/-- `O_LN2G`, behind the two matrices of the feed-forward block. -/
def oLn2g (c : TransCfg) : ℕ :=
  oLn1b c + c.dModel.toNat + c.dModel.toNat * c.dFf.toNat + c.dFf.toNat * c.dModel.toNat

/-- `O_LN2B` -/
def oLn2b (c : TransCfg) : ℕ := oLn2g c + c.dModel.toNat

/-- `LAYSZ` -/
def laysz (c : TransCfg) : ℕ := oLn2b c + c.dModel.toNat

def oFinlnG (c : TransCfg) : ℕ :=
  transHdr + c.vocab.toNat * c.dModel.toNat + c.nLayers.toNat * laysz c

def oFinlnB (c : TransCfg) : ℕ := oFinlnG c + c.dModel.toNat

/-- `weights_rndinit` -/
def weightsRndinit (c : TransCfg) (w : Weights) : Weights :=
  let D := c.dModel.toNat
  let V := c.vocab.toNat
  let n := weightsBytesOf c
  let w := w.loop c.nLayers.toNat fun l w ↦
    let o := layOff c l
    let w := w.loop (4 * D * D + 2 * D * c.dFf.toNat) fun i w ↦ w.putRnd (o + i)
    w.loop D fun i w ↦
      (((w.put (o + oLn1g c + i) 16).put (o + oLn2g c + i) 16).put (o + oLn1b c + i) 0).put
        (o + oLn2b c + i) 0
  let w := w.loop (V * D) fun i w ↦ (w.putRnd (transHdr + i)).putRnd (n - V * D + i)
  w.loop D fun i w ↦ (w.put (oFinlnG c + i) 16).put (oFinlnB c + i) 0

/-- The 32 bytes `hdr_write` puts in front of the weights. -/
def hdrBytes (c : TransCfg) : List Byte :=
  let lo (v : UInt16) : Byte := BitVec.ofNat 8 v.toNat
  let hi (v : UInt16) : Byte := BitVec.ofNat 8 (v.toNat / 256)
  [0x4e, 0x54, 0x52, 0x4e, lo c.dModel, hi c.dModel, lo c.nLayers, hi c.nLayers, lo c.ctx, hi c.ctx,
    lo c.dFf, hi c.dFf, lo c.vocab, hi c.vocab] ++ List.replicate 18 0

/-- `hdr_write` -/
def hdrWrite (c : TransCfg) (blob : Mem) : Mem := fun k ↦
  if k < transHdr then (hdrBytes c).getD k 0 else blob k

/-- `memset(wblob, 0, n)` -/
def memset0 (blob : Mem) (n : ℕ) : Mem := fun k ↦ if k < n then 0 else blob k

/-! ### The live model -/

/-- The lengths, in words, of the buffers `alloc_workspace` reserves. -/
structure Workspace where
  h0 : ℕ
  fwdLay : ℕ
  logits : ℕ
  scr : ℕ
  gup : ℕ
  deriving DecidableEq

/-- The state of the model: `wblob` is its address (`0` for none), `blob` the bytes there. -/
structure TransState where
  cfg : TransCfg
  budgets : Budgets
  wblob : ℕ
  wbytes : ℕ
  blob : Mem
  rng : BitVec 64
  ws : Option Workspace

/-- What a call of `kmalloc` returns, and the bytes it finds there. -/
structure Alloc where
  addr : ℕ
  bytes : Mem

/-- The end of `alloc_blob`: header and weights of the current configuration. -/
def fillBlob (s : TransState) (blob : Mem) : TransState :=
  let w := weightsRndinit s.cfg ⟨hdrWrite s.cfg (memset0 blob (weightsBytesOf s.cfg)), s.rng⟩
  { s with wbytes := weightsBytesOf s.cfg, blob := w.blob, rng := w.rng }

/-- `alloc_blob`: the old block is used again if it is large enough and not twice too large. -/
def allocBlob (a : Alloc) (s : TransState) : TransState :=
  let n := weightsBytesOf s.cfg
  if s.wblob ≠ 0 ∧ n ≤ s.wbytes ∧ s.wbytes ≤ n * 2 then fillBlob s s.blob
  else fillBlob { s with wblob := a.addr } a.bytes

/-- The generator's state at boot. -/
def rngSeed : BitVec 64 := 0x5eed12345678

/-- `trans_init` on a machine with `totalBytes` of RAM; `none` while the growth loop runs. -/
def transInit (fuel totalBytes : ℕ) (a : Alloc) : Option TransState :=
  (autotune (initBudgets totalBytes) fuel specCfg).map fun c ↦
    allocBlob a
      { cfg := (degrade (initBudgets totalBytes) c).2
        budgets := initBudgets totalBytes
        wblob := 0
        wbytes := 0
        blob := fun _ ↦ 0
        rng := rngSeed
        ws := none }

/-- The comparison of two configurations in `trans_config` and `trans_set_act_cap`. -/
def sameShape (t c : TransCfg) : Prop :=
  t.nLayers = c.nLayers ∧ t.ctx = c.ctx ∧ t.dFf = c.dFf ∧ t.dModel = c.dModel

instance (t c : TransCfg) : Decidable (sameShape t c) := inferInstanceAs (Decidable (_ ∧ _))

/-- `free_workspace` -/
def freeWorkspace (s : TransState) : TransState := { s with ws := none }

/-- The new configuration goes live: blob and workspace follow it. -/
def adopt (a : Alloc) (s : TransState) (t : TransCfg) : TransState :=
  freeWorkspace (allocBlob a { s with cfg := t })

/-- The configuration `trans_config` asks for. -/
def requested (c : TransCfg) (layers ctx : UInt32) : TransCfg :=
  { c with
    nLayers := if transLayersMin ≤ layers.toNat ∧ layers.toNat ≤ transLayersMax then
      layers.toUInt16 else c.nLayers
    ctx := if transCtxMin ≤ ctx.toNat ∧ ctx.toNat ≤ transCtxMax then ctx.toUInt16 else c.ctx }

/-- The degraded configuration, or the current one if nothing fits. -/
def degradeOr (b : Budgets) (t cfg : TransCfg) : TransCfg :=
  if (degrade b t).1 then (degrade b t).2 else cfg

/-- `trans_config` -/
def transConfig (a : Alloc) (s : TransState) (layers ctx : UInt32) : TransState :=
  let t := requested s.cfg layers ctx
  if sameShape t s.cfg then s
  else
    let t := degradeOr s.budgets t s.cfg
    if sameShape t s.cfg then s else adopt a s t

/-- The budgets after `trans_set_act_cap`. -/
def withActCap (b : Budgets) (kb : UInt32) : Budgets :=
  { b with acapOverrideKb :=
      if kb.toNat = 0 then 0 else if kb.toNat < 64 then 64
      else if 2 ^ 20 < kb.toNat then 2 ^ 20 else kb.toNat }

/-- `trans_set_act_cap` -/
def transSetActCap (a : Alloc) (s : TransState) (kb : UInt32) : TransState :=
  let s := { s with budgets := withActCap s.budgets kb }
  let t := degradeOr s.budgets s.cfg s.cfg
  if sameShape t s.cfg then s else adopt a s t

end NoOsKernel.Trans
