import Mathlib

/-!
# Transformer configuration, memory footprint and RAM budgets

`kernel/noc/trans.c`, the memory-driven part of the micro-transformer: the configuration record
`trans_cfg_t`, the size of the weight blob (`lay_size`, `weights_bytes_of`), the training working
set (`working_kb`) and the budgets `trans_init` derives from the total RAM.

The dimensions are `u16`, as in the source. The sizes are sums of products of them in `u64`
arithmetic: the blob size of a `u16` configuration stays below `2 ^ 64`, and the working set is
reduced modulo `2 ^ 64` once, at the end of the sum, which is where the wrap-around of the source
is observable.
-/

set_option autoImplicit false
set_option relaxedAutoImplicit false

namespace NoOsKernel.Trans

/-! ### Configuration -/

/-- Bytes of configuration header in front of the weights. -/
def transHdr : ℕ := 32

/-- `TRANS_D_MAX`. -/
def transDMax : ℕ := 1024

/-- `TRANS_LAYERS_MAX`. -/
def transLayersMax : ℕ := 32

/-- `TRANS_CTX_MAX`. -/
def transCtxMax : ℕ := 8192

/-- `trans_cfg_t`: every dimension of the model. -/
structure TransCfg where
  dModel : UInt16
  nHeads : UInt16
  dFf : UInt16
  nLayers : UInt16
  ctx : UInt16
  vocab : UInt16
  deriving DecidableEq

/-- The configuration `trans_init` starts from (the M5 spec). -/
def specCfg : TransCfg where
  dModel := 64
  nHeads := 8
  dFf := 256
  nLayers := 8
  ctx := 256
  vocab := 256

/-! ### Footprint -/

/-- `lay_size`: weight bytes of one transformer block. -/
def laySize (c : TransCfg) : ℕ :=
  let D := c.dModel.toNat
  let F := c.dFf.toNat
  4 * D * D + 2 * D * F + 4 * D

/-- `weights_bytes_of`: header and weights of the whole model. -/
def weightsBytesOf (c : TransCfg) : ℕ :=
  let D := c.dModel.toNat
  let V := c.vocab.toNat
  transHdr + 2 * V * D + c.nLayers.toNat * laySize c + 2 * D

/-- `working_kb`: the training working set in KB. -/
def workingKb (c : TransCfg) : ℕ :=
  let C := c.ctx.toNat
  let D := c.dModel.toNat
  let F := c.dFf.toNat
  let L := c.nLayers.toNat
  let V := c.vocab.toNat
  let laybuf := 3 * C * D + c.nHeads.toNat * C * C + C * D
  let fwd := (L + 1) * C * D + L * laybuf + C * V + C * D + F
  let xtra := L * 2 * C * D + L * C * F + (L + 1) * C * D
  let bwd := L * laybuf + (L + 1) * C * D + C * V
  let bytes := ((fwd + xtra + bwd) * 2 + 8 * (weightsBytesOf c - transHdr) + 8 * V * D +
    8 * C * D + weightsBytesOf c) % 2 ^ 64
  (bytes + 1023) % 2 ^ 64 / 1024 % 2 ^ 32

/-! ### Budgets -/

/-- The RAM budgets: `wbudget_kb`, `acap_kb` and the `TransMem` override of the latter
(`0` for none). -/
structure Budgets where
  wbudgetKb : ℕ
  acapKb : ℕ
  acapOverrideKb : ℕ

/-- `trans_activ_cap_kb`. -/
def transActivCapKb (b : Budgets) : ℕ :=
  if b.acapOverrideKb ≠ 0 then b.acapOverrideKb else b.acapKb

/-- The budgets `trans_init` derives from `pmm_total_bytes()`; no override is set at boot. The `(u32)`
casts of the two quotients are left out: below `2 ^ 44` bytes of memory they cut nothing off. -/
def initBudgets (totalBytes : ℕ) : Budgets :=
  let totalKb := totalBytes / 1024
  let wbudget := if totalKb / 8 < 8192 then 8192 else totalKb / 8
  let acap := if totalKb / 4 < 4096 then 4096 else totalKb / 4
  { wbudgetKb := if wbudget > 2 ^ 20 then 2 ^ 20 else wbudget
    acapKb := if acap > 2 ^ 20 then 2 ^ 20 else acap
    acapOverrideKb := 0 }

/-- The test both `autotune` and `degrade` make of a candidate: its working set is within the
activation cap and its weights within the weight budget. -/
def fits (b : Budgets) (c : TransCfg) : Prop :=
  workingKb c ≤ transActivCapKb b ∧ weightsBytesOf c / 1024 ≤ b.wbudgetKb

instance (b : Budgets) (c : TransCfg) : Decidable (fits b c) :=
  inferInstanceAs (Decidable (_ ∧ _))

/-- With at most 1 GiB of RAM neither budget reaches its upper clamp. -/
theorem transActivCapKb_initBudgets {totalBytes : ℕ} (htotal : totalBytes ≤ 2 ^ 30) :
    transActivCapKb (initBudgets totalBytes) = max 4096 (totalBytes / 1024 / 4) := by
  simp only [transActivCapKb, initBudgets, ne_eq, not_true_eq_false, if_false]
  split_ifs <;> omega

/-- The weight budget never falls below 8 MiB. -/
theorem le_wbudgetKb_initBudgets (totalBytes : ℕ) :
    8192 ≤ (initBudgets totalBytes).wbudgetKb := by
  simp only [initBudgets]
  split_ifs <;> omega

end NoOsKernel.Trans
