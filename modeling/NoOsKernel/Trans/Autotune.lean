import NoOsKernel.Trans.Config

/-!
# The growth loop `autotune`

`kernel/noc/trans.c`, `autotune`: starting from the M5 spec configuration the loop tries four
growth moves in turn (context, feed-forward width, layers, model width), takes the first candidate
that fits the budgets and repeats while some move was taken.

A move that has reached its maximum proposes the current configuration again. When the current
configuration fits, that proposal is accepted and counted as growth, so the loop never leaves it
(`not_terminates_of_saturated`). `autotune_terminates_iff` says on which machines this happens:
the loop ends exactly when the total RAM is below 140504 KB or between 316624 and 368855 KB. In
the first range and in the second the feed-forward width stops short of `16 * d_model`; everywhere
else it saturates.
-/

set_option autoImplicit false
set_option relaxedAutoImplicit false

namespace NoOsKernel.Trans

/-! ### The loop -/

/-- First move: double the context, up to `TRANS_CTX_MAX`. -/
def growCtx (c : TransCfg) : TransCfg :=
  let ctx := if c.ctx.toNat * 2 < transCtxMax then c.ctx.toNat * 2 else transCtxMax
  { c with ctx := UInt16.ofNat ctx }

/-- Second move: double the feed-forward width, up to `16 * d_model`. -/
def growFf (c : TransCfg) : TransCfg :=
  let ff :=
    if c.dFf.toNat * 2 ≤ 16 * c.dModel.toNat then c.dFf.toNat * 2 else 16 * c.dModel.toNat
  { c with dFf := UInt16.ofNat ff }

/-- Third move: double the layers, up to `TRANS_LAYERS_MAX`. -/
def growLayers (c : TransCfg) : TransCfg :=
  let layers :=
    if c.nLayers.toNat * 2 ≤ transLayersMax then c.nLayers.toNat * 2 else transLayersMax
  { c with nLayers := UInt16.ofNat layers }

/-- Fourth move: double the model width, up to `TRANS_D_MAX`, with the feed-forward width and the
heads that go with it. -/
def growModel (c : TransCfg) : TransCfg :=
  let d := UInt16.ofNat
    (if c.dModel.toNat * 2 ≤ transDMax then c.dModel.toNat * 2 else transDMax)
  { c with
    dModel := d
    dFf := UInt16.ofNat (4 * d.toNat)
    nHeads := if d.toNat ≥ 8 then 8 else d }

/-- One iteration of `while (grown)`: the next configuration and the flag `grown`. -/
def autotuneIter (b : Budgets) (c : TransCfg) : TransCfg × Bool :=
  if fits b (growCtx c) then (growCtx c, true)
  else if fits b (growFf c) then (growFf c, true)
  else if fits b (growLayers c) then (growLayers c, true)
  else if fits b (growModel c) then (growModel c, true)
  else (c, false)

/-- `autotune` with a bound on the iterations; `none` when the bound is used up while `grown` is
still set. -/
def autotune (b : Budgets) : ℕ → TransCfg → Option TransCfg
  | 0, _ => none
  | fuel + 1, c =>
    match autotuneIter b c with
    | (c', true) => autotune b fuel c'
    | (c', false) => some c'

/-- The loop reaches an iteration in which `grown` stays `0`. -/
def AutotuneTerminates (b : Budgets) (c : TransCfg) : Prop :=
  ∃ fuel, (autotune b fuel c).isSome

/-! ### What one iteration says about the loop -/

section Iteration

variable {b : Budgets} {c : TransCfg}

/-- An iteration without growth ends the loop. -/
theorem terminates_of_iter_false {c' : TransCfg} (hiter : autotuneIter b c = (c', false)) :
    AutotuneTerminates b c :=
  ⟨1, by simp [autotune, hiter]⟩

/-- An iteration with growth hands the question to the configuration it chose. -/
theorem terminates_iff_of_iter_true (c' : TransCfg) (hiter : autotuneIter b c = (c', true)) :
    AutotuneTerminates b c ↔ AutotuneTerminates b c' := by
  constructor
  · rintro ⟨fuel, hfuel⟩
    cases fuel with
    | zero => simp [autotune] at hfuel
    | succ fuel => exact ⟨fuel, by simpa [autotune, hiter] using hfuel⟩
  · rintro ⟨fuel, hfuel⟩
    exact ⟨fuel + 1, by simpa [autotune, hiter] using hfuel⟩

/-- A configuration that grows into itself is never left. -/
theorem not_terminates_of_saturated (hiter : autotuneIter b c = (c, true)) :
    ¬ AutotuneTerminates b c := by
  rintro ⟨fuel, hfuel⟩
  induction fuel with
  | zero => simp [autotune] at hfuel
  | succ fuel ih => exact ih (by simpa [autotune, hiter] using hfuel)

end Iteration

/-! ### The configurations on the way -/

/-- The M5 spec model with another feed-forward width and context: every configuration the loop
visits on a machine with at most 1 GiB is one of these. -/
def specWith (ff ctx : UInt16) : TransCfg :=
  { specCfg with dFf := ff, ctx := ctx }

/-- A budget pair of a machine with at most 1 GiB: the weight budget covers every candidate below,
so that the activation cap alone decides. -/
structure SmallMachine (b : Budgets) (cap : ℕ) : Prop where
  cap_eq : transActivCapKb b = cap
  wbudget : 8192 ≤ b.wbudgetKb
  cap_le : cap ≤ 262144

section Machine

variable {b : Budgets} {cap : ℕ}

/-- A candidate whose weights are within 8 MiB fits exactly when its working set does. -/
theorem SmallMachine.fits_iff (hb : SmallMachine b cap) {c : TransCfg} {kb : ℕ}
    (hkb : workingKb c = kb) (hweights : weightsBytesOf c / 1024 ≤ 8192) :
    fits b c ↔ kb ≤ cap := by
  rw [fits, hb.cap_eq, hkb]
  exact and_iff_left (Nat.le_trans hweights hb.wbudget)

/-- One iteration on such a machine, from the working sets of the four candidates. -/
theorem SmallMachine.iter_eq (hb : SmallMachine b cap) (c : TransCfg) (kctx kff klay kmod : ℕ)
    (hkb : workingKb (growCtx c) = kctx ∧ workingKb (growFf c) = kff ∧
      workingKb (growLayers c) = klay ∧ workingKb (growModel c) = kmod)
    (hweights : weightsBytesOf (growCtx c) / 1024 ≤ 8192 ∧
      weightsBytesOf (growFf c) / 1024 ≤ 8192 ∧ weightsBytesOf (growLayers c) / 1024 ≤ 8192 ∧
      weightsBytesOf (growModel c) / 1024 ≤ 8192) :
    autotuneIter b c =
      if kctx ≤ cap then (growCtx c, true) else if kff ≤ cap then (growFf c, true)
      else if klay ≤ cap then (growLayers c, true)
      else if kmod ≤ cap then (growModel c, true) else (c, false) := by
  obtain ⟨hctx, hff, hlay, hmod⟩ := hkb
  obtain ⟨wctx, wff, wlay, wmod⟩ := hweights
  simp only [autotuneIter, hb.fits_iff hctx wctx, hb.fits_iff hff wff, hb.fits_iff hlay wlay,
    hb.fits_iff hmod wmod]

/-- At context 256 the feed-forward width grows to 512 from 28469 KB on, and from 35126 KB on to
1024, where it saturates. -/
theorem terminates_iff_of_ctx_small (hb : SmallMachine b cap) (hcap : cap < 79156) :
    AutotuneTerminates b specCfg ↔ cap < 35126 := by
  have hspec := hb.iter_eq specCfg 79156 28469 49350 40552
    (by decide +kernel) (by decide +kernel)
  have hwide := hb.iter_eq (specWith 512 256) 83509 35126 56007 40552
    (by decide +kernel) (by decide +kernel)
  have hfull := hb.iter_eq (specWith 1024 256) 92214 35126 69320 40552
    (by decide +kernel) (by decide +kernel)
  rw [if_neg (by omega)] at hspec hwide hfull
  by_cases hff : 28469 ≤ cap
  · rw [if_pos hff] at hspec
    rw [terminates_iff_of_iter_true (specWith 512 256) (hspec.trans (by decide +kernel))]
    by_cases hsat : 35126 ≤ cap
    · -- the width reaches `16 * d_model` and the loop stays there
      rw [if_pos hsat] at hwide hfull
      rw [terminates_iff_of_iter_true (specWith 1024 256) (hwide.trans (by decide +kernel))]
      have hstuck : autotuneIter b (specWith 1024 256) = (specWith 1024 256, true) :=
        hfull.trans (by decide +kernel)
      exact iff_of_false (not_terminates_of_saturated hstuck) (by omega)
    · rw [if_neg hsat, if_neg (by omega), if_neg (by omega)] at hwide
      exact iff_of_true (terminates_of_iter_false hwide) (by omega)
  · rw [if_neg hff, if_neg (by omega), if_neg (by omega)] at hspec
    exact iff_of_true (terminates_of_iter_false hspec) (by omega)

/-- At context 512 the feed-forward width grows to 512 from 83509 KB on, and from 92214 KB on to
1024, where it saturates. -/
theorem terminates_iff_of_ctx_large (hb : SmallMachine b cap) (hcap : 79156 ≤ cap) :
    AutotuneTerminates b specCfg ↔ cap < 92214 := by
  have hmax := hb.cap_le
  have hspec := hb.iter_eq specCfg 79156 28469 49350 40552
    (by decide +kernel) (by decide +kernel)
  have hlong := hb.iter_eq (specWith 256 512) 285492 83509 156870 99176
    (by decide +kernel) (by decide +kernel)
  have hwide := hb.iter_eq (specWith 512 512) 291893 92214 165575 99176
    (by decide +kernel) (by decide +kernel)
  have hfull := hb.iter_eq (specWith 1024 512) 304694 92214 182984 99176
    (by decide +kernel) (by decide +kernel)
  rw [if_pos hcap] at hspec
  rw [if_neg (by omega)] at hlong hwide hfull
  rw [terminates_iff_of_iter_true (specWith 256 512) (hspec.trans (by decide +kernel))]
  by_cases hff : 83509 ≤ cap
  · rw [if_pos hff] at hlong
    rw [terminates_iff_of_iter_true (specWith 512 512) (hlong.trans (by decide +kernel))]
    by_cases hsat : 92214 ≤ cap
    · -- the width reaches `16 * d_model` and the loop stays there
      rw [if_pos hsat] at hwide hfull
      rw [terminates_iff_of_iter_true (specWith 1024 512) (hwide.trans (by decide +kernel))]
      have hstuck : autotuneIter b (specWith 1024 512) = (specWith 1024 512, true) :=
        hfull.trans (by decide +kernel)
      exact iff_of_false (not_terminates_of_saturated hstuck) (by omega)
    · rw [if_neg hsat, if_neg (by omega), if_neg (by omega)] at hwide
      exact iff_of_true (terminates_of_iter_false hwide) (by omega)
  · rw [if_neg hff, if_neg (by omega), if_neg (by omega)] at hlong
    exact iff_of_true (terminates_of_iter_false hlong) (by omega)

end Machine

/-! ### Machines from 1 MiB to 1 GiB -/

/-- The budgets of a machine with at most 1 GiB. -/
theorem smallMachine_initBudgets {totalBytes : ℕ} (htotal : totalBytes ≤ 2 ^ 30) :
    SmallMachine (initBudgets totalBytes) (max 4096 (totalBytes / 1024 / 4)) where
  cap_eq := transActivCapKb_initBudgets htotal
  wbudget := le_wbudgetKb_initBudgets totalBytes
  cap_le := by omega

/-- The loop of `trans_init` ends exactly on the machines with less than 140504 KB of RAM and on
those with 316624 to 368855 KB. Assumes: between 1 MiB and 1 GiB of RAM. -/
theorem autotune_terminates_iff (totalBytes : ℕ) (_hmin : 2 ^ 20 ≤ totalBytes)
    (hmax : totalBytes ≤ 2 ^ 30) :
    AutotuneTerminates (initBudgets totalBytes) specCfg ↔
      totalBytes / 1024 < 140504 ∨
        (316624 ≤ totalBytes / 1024 ∧ totalBytes / 1024 < 368856) := by
  have hb := smallMachine_initBudgets hmax
  by_cases hcap : max 4096 (totalBytes / 1024 / 4) < 79156
  · rw [terminates_iff_of_ctx_small hb hcap]
    omega
  · rw [terminates_iff_of_ctx_large hb (by omega)]
    omega

/-- On a 64 MiB machine the loop ends. -/
theorem autotune_terminates_iff_64MiB :
    AutotuneTerminates (initBudgets (2 ^ 26)) specCfg :=
  (autotune_terminates_iff (2 ^ 26) (by decide) (by decide)).mpr (Or.inl (by decide))

/-- On a 1 GiB machine it does not. -/
theorem autotune_diverges_1GiB :
    ¬ ∀ totalBytes : ℕ, 2 ^ 20 ≤ totalBytes → totalBytes ≤ 2 ^ 30 →
      AutotuneTerminates (initBudgets totalBytes) specCfg := by
  intro hall
  have hb : SmallMachine (initBudgets (2 ^ 30)) 262144 :=
    smallMachine_initBudgets (Nat.le_refl _)
  have hterm := (terminates_iff_of_ctx_large hb (by decide)).mp
    (hall (2 ^ 30) (by decide) (Nat.le_refl _))
  omega

end NoOsKernel.Trans
