import NoOsKernel.Trans.Shares

/-!
# What a row of the attention step depends on

The mask of the attention step is a score of `-32768`, which competes with the scores of the row. A
masked position has no weight exactly if its exponential is outweighed 4096 times by those of the row;
where it is not, the output of the row depends on values of later positions.
-/

set_option autoImplicit false
set_option relaxedAutoImplicit false

namespace NoOsKernel.Trans

open Lib Lib.Prog

section Causal

variable (p : Dims) (lay i : ℕ) (m m' : Words WsBuf ℤ) (hd : ℕ)

/-- `m'` has the rows up to `i` that `m` has in the block at `off`. -/
def SameRows (off : ℕ) : Prop :=
  ∀ r ≤ i, ∀ k < p.D, m' .fwdLay (lay + (off + (r * p.D + k))) = m .fwdLay (lay + (off + (r * p.D + k)))

/-- `m'` has the rows up to `i` that `m` has in `Q`, `K` and `V`. -/
structure SameUpTo : Prop where
  q : SameRows p lay i m m' 0
  k : SameRows p lay i m m' p.offK
  v : SameRows p lay i m m' p.offV

/-- Row `i` of the output is the same for all `Q`, `K` and `V` with the same rows up to `i`. -/
def Causal : Prop :=
  ∀ m', Words16 p lay m' → SameUpTo p lay i m m' → ∀ k < p.D,
    (attention p lay m').words .fwdLay (lay + (p.offA + (i * p.D + k))) =
      (attention p lay m).words .fwdLay (lay + (p.offA + (i * p.D + k)))

/-- The exponential of the mask. -/
def maskLevel : ℤ := expOf (-32768 - topScore p lay m hd i)

/-- The exponentials of the row make up more than 4096 times that of the mask. -/
def MaskOutweighed : Prop :=
  4096 * maskLevel p lay i m hd < levelSum p lay m hd i

end Causal

variable {p : Dims} {lay i hd : ℕ} {m m' : Words WsBuf ℤ}

theorem level_masked {j : ℕ} (hj : i < j) : level p lay m hd i j = maskLevel p lay i m hd := by
  rw [level, wideScore, if_pos hj, maskLevel]
  rfl

/-- A score from `-30720` on outweighs the mask. -/
theorem maskOutweighed_of_le (hi : i < p.C) {j : ℕ} (hj : j ≤ i)
    (hscore : -30720 ≤ narrow32 (exactScore p lay m hd i j)) : MaskOutweighed p lay i m hd := by
  have htop := wideScore_le_topScore lay m hd i (hj.trans_lt hi)
  rw [wideScore, if_neg (not_lt.mpr hj)] at htop
  have hsum := le_levelSum lay m hd hi
  rw [MaskOutweighed, maskLevel, expOf, if_pos (by omega)]
  omega

/-! ### Outweighed masks -/

section SameUpTo

variable (hsame : SameUpTo p lay i m m') (hhd : hd < p.H)
include hsame hhd

theorem exactScore_sameUpTo {j : ℕ} (hj : j ≤ i) :
    exactScore p lay m' hd i j = exactScore p lay m hd i j := by
  unfold exactScore
  refine congrArg (fun acc : ℤ ↦ acc >>> 11) (Finset.sum_congr rfl fun k hk ↦ ?_)
  have hcol := dh_col_lt hhd (Finset.mem_range.mp hk)
  have hq := hsame.q i (le_refl i) _ hcol
  simp only [Nat.zero_add] at hq
  rw [hq, hsame.k j hj _ hcol]

theorem wideScore_sameUpTo (j : ℕ) : wideScore p lay m' hd i j = wideScore p lay m hd i j := by
  unfold wideScore
  split_ifs with hj
  · rfl
  · rw [exactScore_sameUpTo hsame hhd (not_lt.mp hj)]

theorem share_sameUpTo (j : ℕ) : share p lay m' hd i j = share p lay m hd i j := by
  have htop : topScore p lay m' hd i = topScore p lay m hd i := by
    simp only [topScore, wideScore_sameUpTo hsame hhd]
  have hlevel (j : ℕ) : level p lay m' hd i j = level p lay m hd i j := by
    rw [level, level, wideScore_sameUpTo hsame hhd, htop]
  have hsum : levelSum p lay m' hd i = levelSum p lay m hd i :=
    Finset.sum_congr rfl fun j _ ↦ hlevel j
  rw [share, share, hlevel, hsum]

theorem attended_sameUpTo (hC : p.C < 2 ^ 20) (hi : i < p.C)
    (hmask : i + 1 = p.C ∨ MaskOutweighed p lay i m hd) {o : ℕ} (ho : o < p.dh) :
    attended p lay m' hd i o = attended p lay m hd i o := by
  unfold attended
  refine congrArg (fun acc : ℤ ↦ toI16 (acc >>> 12)) (Finset.sum_congr rfl fun j hj ↦ ?_)
  have hj := Finset.mem_range.mp hj
  rw [share_sameUpTo hsame hhd]
  obtain hle | hlt := le_or_gt j i
  · rw [hsame.v j hle _ (dh_col_lt hhd ho)]
  · obtain hlast | hout := hmask
    · omega
    · have hzero : share p lay m hd i j = 0 := by
        have hpos := level_nonneg p lay m hd i j
        rw [MaskOutweighed, ← level_masked hlt] at hout
        rw [share_eq hC hi hj]
        exact Int.ediv_eq_zero_of_lt (by omega) (by omega)
      rw [hzero, zero_mul, zero_mul]

end SameUpTo

theorem causal_of_outweighed (hdvd : p.H ∣ p.D) (hC : p.C < 2 ^ 20) (hi : i < p.C)
    (hmask : i + 1 = p.C ∨ ∀ hd < p.H, MaskOutweighed p lay i m hd) : Causal p lay i m := by
  intro m' _ hsame k hk
  have hD : p.H * p.dh = p.D := Nat.mul_div_cancel' hdvd
  have hdh : 0 < p.dh := by
    rw [Nat.pos_iff_ne_zero]
    intro hzero
    rw [hzero] at hD
    omega
  have hhd : k / p.dh < p.H := (Nat.div_lt_iff_lt_mul hdh).mpr (by omega)
  have ho : k % p.dh < p.dh := Nat.mod_lt _ hdh
  have hplace : lay + (p.offA + (i * p.D + k)) = p.outAt lay (k / p.dh) i (k % p.dh) := by
    rw [Dims.outAt, Nat.div_add_mod']
  rw [hplace, attention_out hhd hi ho, attention_out hhd hi ho]
  exact attended_sameUpTo hsame hhd hC hi (hmask.imp_right fun h ↦ h _ hhd) ho

/-! ### Masks that have weight -/

section Leak

variable (p lay i hd)

/-- The place of the first value of the head in the row after `i`. -/
def leakAt : ℕ := lay + (p.offV + ((i + 1) * p.D + (hd * p.dh + 0)))

end Leak

/-- A value of the first masked position is not among the rows up to `i`. -/
theorem sameUpTo_put (hi : i < p.C) (hhd : hd < p.H) (hdh : 0 < p.dh) (v : ℤ) :
    SameUpTo p lay i m (put m .fwdLay (leakAt p lay i hd) v) := by
  have hcol := dh_col_lt hhd hdh
  have hrows {off : ℕ} (hoff : off + p.C * p.D ≤ p.offV) :
      SameRows p lay i m (put m .fwdLay (leakAt p lay i hd) v) off := by
    intro r hr k hk
    have hrow : r * p.D + k < p.C * p.D := row_add_lt (hr.trans_lt hi) hk
    refine put_of_ne (fun heq ↦ ?_) v
    have heq := heq.2
    rw [leakAt] at heq
    omega
  have hdouble : p.offV = 2 * (p.C * p.D) := by rw [Dims.offV]; ring
  refine ⟨hrows ?_, hrows ?_, fun r hr k hk ↦ put_of_ne (fun heq ↦ ?_) v⟩
  · omega
  · rw [Dims.offK]
    omega
  · have hrow := (row_inj hk hcol (Nat.add_left_cancel (Nat.add_left_cancel heq.2))).1
    omega

theorem words16_put (hm : Words16 p lay m) {v : ℤ} (hlow : -32768 ≤ v) (hhigh : v ≤ 32767) (x : ℕ) :
    Words16 p lay (put m .fwdLay x v) := by
  intro y hy
  unfold put
  split_ifs
  · exact ⟨hlow, hhigh⟩
  · exact hm y hy

/-- The sums of the values stay within an `i16`. -/
theorem sum_share_mul_mem (lay : ℕ) (m : Words WsBuf ℤ) (hd : ℕ) (hC : p.C < 2 ^ 20) (hi : i < p.C) {v : ℕ → ℤ}
    (hv : ∀ j < p.C, -32768 ≤ v j ∧ v j ≤ 32767) :
    4096 * -32768 ≤ ∑ j ∈ Finset.range p.C, share p lay m hd i j * v j ∧
      ∑ j ∈ Finset.range p.C, share p lay m hd i j * v j ≤ 4096 * 32767 := by
  have hsum : ∑ j ∈ Finset.range p.C, share p lay m hd i j ≤ 4096 := sum_share_le hC hi
  constructor
  · calc (4096 * -32768 : ℤ) ≤ (∑ j ∈ Finset.range p.C, share p lay m hd i j) * -32768 := by omega
      _ = ∑ j ∈ Finset.range p.C, share p lay m hd i j * -32768 := Finset.sum_mul ..
      _ ≤ _ := Finset.sum_le_sum fun j hj ↦ Int.mul_le_mul_of_nonneg_left
          (hv j (Finset.mem_range.mp hj)).1 (share_nonneg hC hi (Finset.mem_range.mp hj))
  · calc ∑ j ∈ Finset.range p.C, share p lay m hd i j * v j
        ≤ ∑ j ∈ Finset.range p.C, share p lay m hd i j * 32767 :=
          Finset.sum_le_sum fun j hj ↦ Int.mul_le_mul_of_nonneg_left
            (hv j (Finset.mem_range.mp hj)).2 (share_nonneg hC hi (Finset.mem_range.mp hj))
      _ = (∑ j ∈ Finset.range p.C, share p lay m hd i j) * 32767 := (Finset.sum_mul ..).symm
      _ ≤ 4096 * 32767 := by omega

theorem shiftRight_twelve (x : ℤ) : x >>> 12 = x / 4096 :=
  (Int.shiftRight_natCast_right x 12).trans (Int.shiftRight_eq_div_pow x 12)

/-- The output of the head at its first coordinate, with a value in the first masked row. -/
theorem attended_put (hC : p.C < 2 ^ 20) (hi : i < p.C) (hhd : hd < p.H) (hdh : 0 < p.dh)
    (hm : Words16 p lay m) {v : ℤ} (hlow : -32768 ≤ v) (hhigh : v ≤ 32767) :
    attended p lay (put m .fwdLay (leakAt p lay i hd) v) hd i 0 =
      (∑ j ∈ Finset.range p.C, share p lay m hd i j *
        (if j = i + 1 then v else m .fwdLay (lay + (p.offV + (j * p.D + (hd * p.dh + 0)))))) /
          4096 := by
  have hcol : hd * p.dh + 0 < p.D := dh_col_lt hhd hdh
  have hvalue (j : ℕ) : (put m .fwdLay (leakAt p lay i hd) v) .fwdLay
        (lay + (p.offV + (j * p.D + (hd * p.dh + 0)))) =
      if j = i + 1 then v else m .fwdLay (lay + (p.offV + (j * p.D + (hd * p.dh + 0)))) := by
    split_ifs with hj
    · subst hj
      exact put_self ..
    · refine put_of_ne (fun heq ↦ hj ?_) v
      exact (row_inj hcol hcol (Nat.add_left_cancel (Nat.add_left_cancel heq.2))).1
  have hmem := sum_share_mul_mem lay m hd hC hi (v := fun j ↦
      if j = i + 1 then v else m .fwdLay (lay + (p.offV + (j * p.D + (hd * p.dh + 0)))))
    fun j hj ↦ by
      rw [← hvalue]
      exact words16_put hm hlow hhigh (leakAt p lay i hd) _ (lt_offS_of_col (le_refl _) hj hcol)
  simp only [attended, share_sameUpTo (sameUpTo_put hi hhd hdh v) hhd, hvalue, shiftRight_twelve]
  exact toI16_of_mem (by omega) (by omega)

/-- With a masked position that has weight, a change of its value shows in the output. -/
theorem attended_put_ne (hC : p.C < 2 ^ 20) (hi : i + 1 < p.C) (hhd : hd < p.H) (hdh : 0 < p.dh)
    (hm : Words16 p lay m) (hmask : ¬ MaskOutweighed p lay i m hd) :
    attended p lay (put m .fwdLay (leakAt p lay i hd) (-32768)) hd i 0 ≠
      attended p lay (put m .fwdLay (leakAt p lay i hd) 32767) hd i 0 := by
  have hi' : i < p.C := by omega
  rw [attended_put hC hi' hhd hdh hm (by decide) (by decide),
    attended_put hC hi' hhd hdh hm (by decide) (by decide)]
  have hweight : 1 ≤ share p lay m hd i (i + 1) := by
    have hsum := le_levelSum lay m hd hi'
    have hlevel : level p lay m hd i (i + 1) = maskLevel p lay i m hd :=
      level_masked (Nat.lt_succ_self i)
    rw [MaskOutweighed, ← hlevel] at hmask
    rw [share_eq hC hi' hi]
    exact (Int.le_ediv_iff_mul_le (by omega)).mpr (by omega)
  have hdiff : (∑ j ∈ Finset.range p.C, share p lay m hd i j *
        (if j = i + 1 then 32767 else m .fwdLay (lay + (p.offV + (j * p.D + (hd * p.dh + 0)))))) -
      ∑ j ∈ Finset.range p.C, share p lay m hd i j *
        (if j = i + 1 then -32768 else m .fwdLay (lay + (p.offV + (j * p.D + (hd * p.dh + 0))))) =
      share p lay m hd i (i + 1) * 65535 := by
    rw [← Finset.sum_sub_distrib, Finset.sum_eq_single (i + 1)]
    · rw [if_pos rfl, if_pos rfl]
      ring
    · intro j _ hj
      rw [if_neg hj, if_neg hj, sub_self]
    · exact fun hout ↦ absurd (Finset.mem_range.mpr hi) hout
  omega

theorem not_causal (hC : p.C < 2 ^ 20) (hi : i + 1 < p.C) (hhd : hd < p.H)
    (hm : Words16 p lay m) (hmask : ¬ MaskOutweighed p lay i m hd) : ¬ Causal p lay i m := by
  intro hcausal
  have hi' : i < p.C := by omega
  have hdh : 0 < p.dh := by
    rw [Nat.pos_iff_ne_zero]
    intro hzero
    -- without coordinates every product is 0
    refine hmask (maskOutweighed_of_le hi' (le_refl i) ?_)
    have hproduct : exactScore p lay m hd i i = 0 := by
      rw [exactScore, hzero, Finset.range_zero, Finset.sum_empty]
      rfl
    rw [hproduct]
    decide
  have hrow (v : ℤ) (hlow : -32768 ≤ v) (hhigh : v ≤ 32767) :
      attended p lay (put m .fwdLay (leakAt p lay i hd) v) hd i 0 = attended p lay m hd i 0 := by
    have h := hcausal _ (words16_put hm hlow hhigh (leakAt p lay i hd)) (sameUpTo_put hi' hhd hdh v)
      (hd * p.dh + 0) (dh_col_lt hhd hdh)
    have hplace : lay + (p.offA + (i * p.D + (hd * p.dh + 0))) = p.outAt lay hd i 0 := rfl
    rwa [hplace, attention_out hhd hi' hdh, attention_out hhd hi' hdh] at h
  refine attended_put_ne hC hi hhd hdh hm hmask ?_
  rw [hrow (-32768) (by decide) (by decide), hrow 32767 (by decide) (by decide)]

/-- A row of the attention step is a function of the rows up to it exactly if it is the last one, or
its exponentials outweigh the mask in every head. -/
theorem causal_iff (hdvd : p.H ∣ p.D) (hC : p.C < 2 ^ 20) (hi : i < p.C) (hm : Words16 p lay m) :
    Causal p lay i m ↔ i + 1 = p.C ∨ ∀ hd < p.H, MaskOutweighed p lay i m hd := by
  constructor
  · intro h
    by_contra hno
    obtain ⟨hlast, hheads⟩ := not_or.mp hno
    push Not at hheads
    obtain ⟨hd, hhd, hmask⟩ := hheads
    exact not_causal hC (by omega) hhd hm hmask h
  · exact causal_of_outweighed hdvd hC hi

/-- Queries of 40, keys of -300 and values of 7. -/
def mixedWords : Words WsBuf ℤ
  | .fwdLay, k => if k < 128 then 40 else if k < 256 then -300 else 7
  | _, _ => -1

theorem causal_iff_mixedWords : Causal (dims specCfg 2) 0 0 mixedWords := by
  have hwords : Words16 (dims specCfg 2) 0 mixedWords := by
    intro y _
    unfold mixedWords
    split <;> split_ifs <;> decide
  refine (causal_iff (by decide) (by decide) (by decide) hwords).mpr (Or.inr fun hd hhd ↦ ?_)
  refine maskOutweighed_of_le (by decide) (le_refl 0) ?_
  have hhd : hd < 8 := hhd
  interval_cases hd <;> decide +kernel

/-- Position 0 has a query of 8192 and a key of -8192: their scaled product is that of the mask. -/
def opposedWords : Words WsBuf ℤ
  | .fwdLay, 0 => 8192
  | .fwdLay, 128 => -8192
  | _, _ => 0

theorem not_causal_opposedWords : ¬ ∀ (p : Dims) (lay i : ℕ) (m : Words WsBuf ℤ),
    p.H ∣ p.D → p.C < 2 ^ 20 → i < p.C → Words16 p lay m → Causal p lay i m := by
  intro h
  have hwords : Words16 (dims specCfg 2) 0 opposedWords := by
    intro y _
    unfold opposedWords
    split <;> decide
  have hmask : ¬ MaskOutweighed (dims specCfg 2) 0 0 opposedWords 0 := by
    rw [MaskOutweighed, maskLevel]
    decide +kernel
  exact not_causal (by decide) (by decide) (by decide) hwords hmask
    (h (dims specCfg 2) 0 0 opposedWords (by decide) (by decide) (by decide) hwords)

end NoOsKernel.Trans
