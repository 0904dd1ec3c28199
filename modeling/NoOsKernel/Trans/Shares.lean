import NoOsKernel.Trans.Attention

/-!
# The shares of a row

The shares the attention step gives to the positions of a row are numbers in 4096 that add up to at
most 4096. They follow the scaled products of the row as far as the narrowing to an `i16` does: a
product below `-32768`, or from `2 ^ 31` on, is stored as another one.
-/

set_option autoImplicit false
set_option relaxedAutoImplicit false

namespace NoOsKernel.Trans

open Lib Lib.Prog

/-! ### Narrowing -/

theorem toI16_of_mem {x : ℤ} (hlow : -32768 ≤ x) (hhigh : x ≤ 32767) : toI16 x = x :=
  Int.bmod_eq_of_le (by omega) (by omega)

theorem toI32_of_mem {x : ℤ} (hlow : -2 ^ 31 ≤ x) (hhigh : x < 2 ^ 31) : toI32 x = x :=
  Int.bmod_eq_of_le (by omega) (by omega)

theorem toI16_mem (x : ℤ) : -32768 ≤ toI16 x ∧ toI16 x ≤ 32767 := by
  have hlow : -((2 ^ 16 : ℕ) / 2 : ℤ) ≤ toI16 x := Int.le_bmod (by decide)
  have hhigh : toI16 x < ((2 ^ 16 : ℕ) + 1) / 2 := Int.bmod_lt (by decide)
  omega

theorem narrow32_le (x : ℤ) : narrow32 x ≤ 32767 := by
  unfold narrow32
  split_ifs <;> omega

theorem narrow32_of_mem {x : ℤ} (hlow : -2 ^ 31 ≤ x) (hhigh : x < 2 ^ 31) :
    narrow32 x = min x 32767 := by
  rw [narrow32, toI32_of_mem hlow hhigh]
  split_ifs <;> omega

/-! ### The exponential -/

theorem expmTab_le_of_le {k l : ℕ} (h : k ≤ l) : expmTab l ≤ expmTab k := by
  induction h with
  | refl => exact le_refl _
  | @step l _ ih =>
    have hpos : 1 ≤ expmTab l := by
      cases l with
      | zero => decide
      | succ l => rw [expmTab]; split_ifs <;> omega
    rw [expmTab]
    split_ifs <;> omega

theorem expmTab_le (k : ℕ) : expmTab k ≤ 4096 := expmTab_le_of_le (Nat.zero_le k)

theorem expOf_nonneg (s : ℤ) : 0 ≤ expOf s := by
  unfold expOf
  split_ifs <;> omega

theorem expOf_le (s : ℤ) : expOf s ≤ 4096 := by
  unfold expOf
  have h := expmTab_le (-s).toNat
  split_ifs <;> omega

theorem expOf_mono {s s' : ℤ} (h : s ≤ s') : expOf s ≤ expOf s' := by
  unfold expOf
  have hle := expmTab_le (-s).toNat
  have hmono : expmTab (-s).toNat ≤ expmTab (-s').toNat := expmTab_le_of_le (by omega)
  split_ifs <;> omega

section Row

variable (p : Dims) (lay : ℕ) (m : Words WsBuf ℤ) (hd i : ℕ)

/-! ### The largest score -/

theorem le_topScore : -32768 ≤ topScore p lay m hd i := (foldl_max _ _ _).1

variable {p} in
theorem wideScore_le_topScore {j : ℕ} (hj : j < p.C) :
    wideScore p lay m hd i j ≤ topScore p lay m hd i :=
  (foldl_max _ _ _).2.1 j hj

theorem wideScore_le (j : ℕ) : wideScore p lay m hd i j ≤ 32767 := by
  unfold wideScore
  split_ifs
  · decide
  · exact narrow32_le _

/-! ### Levels -/

theorem level_nonneg (j : ℕ) : 0 ≤ level p lay m hd i j := expOf_nonneg _

theorem level_le (j : ℕ) : level p lay m hd i j ≤ 4096 := expOf_le _

variable {p i}

/-- Some position has the full level: one with the largest score, if that is not the one the search
starts from. -/
theorem exists_level (hi : i < p.C) : ∃ j < p.C, level p lay m hd i j = 4096 := by
  have hfull {s : ℤ} (hs : 0 ≤ s) : expOf s = 4096 := by
    rw [expOf, if_neg (by omega), if_pos hs]
  obtain htop | ⟨j, hj, htop⟩ : topScore p lay m hd i = -32768 ∨
      ∃ j < p.C, topScore p lay m hd i = wideScore p lay m hd i j := (foldl_max _ _ _).2.2
  · refine ⟨i, hi, hfull ?_⟩
    have h := toI16_mem (wideScore p lay m hd i i)
    omega
  · refine ⟨j, hj, hfull ?_⟩
    have hlow := le_topScore p lay m hd i
    rw [htop] at hlow ⊢
    rw [toI16_of_mem hlow (wideScore_le p lay m hd i j), sub_self]

theorem level_le_levelSum {j : ℕ} (hj : j < p.C) : level p lay m hd i j ≤ levelSum p lay m hd i :=
  Finset.single_le_sum (fun j _ ↦ level_nonneg p lay m hd i j) (Finset.mem_range.mpr hj)

theorem le_levelSum (hi : i < p.C) : 4096 ≤ levelSum p lay m hd i := by
  obtain ⟨j, hj, hfull⟩ := exists_level lay m hd hi
  exact hfull.symm.le.trans (level_le_levelSum lay m hd hj)

variable (p i) in
theorem levelSum_le : levelSum p lay m hd i ≤ p.C * 4096 := by
  refine (Finset.sum_le_card_nsmul _ _ 4096 fun j _ ↦ level_le p lay m hd i j).trans ?_
  rw [Finset.card_range, nsmul_eq_mul]

/-! ### Shares -/

variable {lay m hd}

/-- A share is the quotient the source writes down, without a word that wraps around. -/
theorem share_eq (hC : p.C < 2 ^ 20) (hi : i < p.C) {j : ℕ} (hj : j < p.C) :
    share p lay m hd i j = level p lay m hd i j * 4096 / levelSum p lay m hd i := by
  have hlow := level_nonneg p lay m hd i j
  have hhigh := level_le p lay m hd i j
  have hsum := le_levelSum lay m hd hi
  have hsum' := levelSum_le p lay m hd i
  have hle : level p lay m hd i j ≤ levelSum p lay m hd i := level_le_levelSum lay m hd hj
  have hlevel : toI16 (level p lay m hd i j) = level p lay m hd i j :=
    toI16_of_mem (by omega) (by omega)
  rw [share, hlevel, if_neg (by omega), Int.emod_eq_of_lt (by omega) (by omega),
    Int.emod_eq_of_lt (by omega) (by omega)]
  have hquot : level p lay m hd i j * 4096 / levelSum p lay m hd i ≤ 4096 :=
    Int.ediv_le_of_le_mul (by omega) (by nlinarith only [hle])
  have hquot' : 0 ≤ level p lay m hd i j * 4096 / levelSum p lay m hd i :=
    Int.ediv_nonneg (by omega) (by omega)
  exact toI16_of_mem (by omega) (by omega)

theorem share_nonneg (hC : p.C < 2 ^ 20) (hi : i < p.C) {j : ℕ} (hj : j < p.C) :
    0 ≤ share p lay m hd i j := by
  rw [share_eq hC hi hj]
  have hsum := le_levelSum lay m hd hi
  exact Int.ediv_nonneg (Int.mul_nonneg (level_nonneg p lay m hd i j) (by decide)) (by omega)

/-- The shares of a row make up at most the whole. -/
theorem sum_share_le (hC : p.C < 2 ^ 20) (hi : i < p.C) :
    ∑ j ∈ Finset.range p.C, share p lay m hd i j ≤ 4096 := by
  have hsum := le_levelSum lay m hd hi
  have hpos : 0 < levelSum p lay m hd i := by omega
  refine le_of_mul_le_mul_right ?_ hpos
  calc (∑ j ∈ Finset.range p.C, share p lay m hd i j) * levelSum p lay m hd i
      = ∑ j ∈ Finset.range p.C, share p lay m hd i j * levelSum p lay m hd i := Finset.sum_mul ..
    _ ≤ ∑ j ∈ Finset.range p.C, level p lay m hd i j * 4096 := by
        refine Finset.sum_le_sum fun j hj ↦ ?_
        rw [share_eq hC hi (Finset.mem_range.mp hj)]
        exact Int.ediv_mul_le _ hpos.ne'
    _ = 4096 * levelSum p lay m hd i := by rw [← Finset.sum_mul, mul_comm]; rfl

theorem sum_share_le_of_subset (hC : p.C < 2 ^ 20) (hi : i < p.C) {s : Finset ℕ}
    (hs : s ⊆ Finset.range p.C) : ∑ j ∈ s, share p lay m hd i j ≤ 4096 :=
  (Finset.sum_le_sum_of_subset_of_nonneg hs fun _ hj _ ↦
    share_nonneg hC hi (Finset.mem_range.mp hj)).trans (sum_share_le hC hi)

theorem share_le (hC : p.C < 2 ^ 20) (hi : i < p.C) {j : ℕ} (hj : j < p.C) :
    share p lay m hd i j ≤ 4096 := by
  have h : ∑ j ∈ {j}, share p lay m hd i j ≤ 4096 :=
    sum_share_le_of_subset hC hi (Finset.singleton_subset_iff.mpr (Finset.mem_range.mpr hj))
  rwa [Finset.sum_singleton] at h

theorem share_mono (hC : p.C < 2 ^ 20) (hi : i < p.C) {j k : ℕ} (hj : j < p.C) (hk : k < p.C)
    (hle : level p lay m hd i j ≤ level p lay m hd i k) :
    share p lay m hd i j ≤ share p lay m hd i k := by
  have hsum := le_levelSum lay m hd hi
  rw [share_eq hC hi hj, share_eq hC hi hk]
  exact Int.ediv_le_ediv (by omega) (by omega)

end Row

/-! ### The order of the shares -/

section Order

variable (p : Dims) (lay : ℕ) (m : Words WsBuf ℤ) (hd i : ℕ)

/-- The words of `Q`, `K` and `V` are those of an `i16`. -/
def Words16 : Prop :=
  ∀ y < p.offS, -32768 ≤ m .fwdLay (lay + y) ∧ m .fwdLay (lay + y) ≤ 32767

/-- The weight the attention step leaves for position `j` in row `i` of a head. -/
def weight (j : ℕ) : ℤ := (attention p lay m).words .fwdLay (p.at lay hd i j)

/-- The weights of the unmasked positions are shares of 4096, and follow the scaled products. -/
structure Orderly : Prop where
  mem : ∀ j ≤ i, 0 ≤ weight p lay m hd i j ∧ weight p lay m hd i j ≤ 4096
  sum_le : ∑ j ∈ Finset.range (i + 1), weight p lay m hd i j ≤ 4096
  mono : ∀ j ≤ i, ∀ k ≤ i, exactScore p lay m hd i j ≤ exactScore p lay m hd i k →
    weight p lay m hd i j ≤ weight p lay m hd i k

/-- The score of an unmasked position, as stored. -/
def storedScore (j : ℕ) : ℤ := toI16 (narrow32 (exactScore p lay m hd i j))

/-- The narrowing of the scaled products reverses no two of them. -/
def NarrowsInOrder : Prop :=
  ∀ j ≤ i, ∀ k ≤ i, exactScore p lay m hd i j ≤ exactScore p lay m hd i k →
    storedScore p lay m hd i j ≤ storedScore p lay m hd i k

/-- The narrowing reverses two products whose exponentials are apart by the length of the row. -/
def ReversesFar : Prop :=
  ∃ j ≤ i, ∃ k ≤ i, exactScore p lay m hd i j ≤ exactScore p lay m hd i k ∧
    expOf (storedScore p lay m hd i k - topScore p lay m hd i) + p.C ≤
      expOf (storedScore p lay m hd i j - topScore p lay m hd i)

variable {p lay m hd i}

theorem level_of_le {j : ℕ} (hj : j ≤ i) :
    level p lay m hd i j = expOf (storedScore p lay m hd i j - topScore p lay m hd i) := by
  rw [level, wideScore, if_neg (not_lt.mpr hj), storedScore]

theorem weight_eq (hhd : hd < p.H) (hi : i < p.C) {j : ℕ} (hj : j ≤ i) :
    weight p lay m hd i j = share p lay m hd i j :=
  attention_share hhd hi (hj.trans_lt hi)

/-- Products that are not below `-32768` and fit an `i32` keep their order. -/
theorem narrowsInOrder_of_mem (h : ∀ j ≤ i, -32768 ≤ exactScore p lay m hd i j ∧
    exactScore p lay m hd i j < 2 ^ 31) : NarrowsInOrder p lay m hd i := by
  intro j hj k hk hle
  have hstored (l : ℕ) (hl : l ≤ i) :
      storedScore p lay m hd i l = min (exactScore p lay m hd i l) 32767 := by
    obtain ⟨hlow, hhigh⟩ := h l hl
    rw [storedScore, narrow32_of_mem (by omega) hhigh, toI16_of_mem (by omega) (by omega)]
  rw [hstored j hj, hstored k hk]
  exact min_le_min_right _ hle

theorem weight_mem (hC : p.C < 2 ^ 20) (hhd : hd < p.H) (hi : i < p.C) {j : ℕ} (hj : j ≤ i) :
    0 ≤ weight p lay m hd i j ∧ weight p lay m hd i j ≤ 4096 := by
  rw [weight_eq hhd hi hj]
  exact ⟨share_nonneg hC hi (hj.trans_lt hi), share_le hC hi (hj.trans_lt hi)⟩

theorem sum_weight_le (hC : p.C < 2 ^ 20) (hhd : hd < p.H) (hi : i < p.C) :
    ∑ j ∈ Finset.range (i + 1), weight p lay m hd i j ≤ 4096 := by
  rw [Finset.sum_congr rfl fun j hj ↦
    weight_eq hhd hi (Nat.lt_succ_iff.mp (Finset.mem_range.mp hj))]
  exact sum_share_le_of_subset hC hi (Finset.range_subset_range.mpr hi)

/-- The weights follow the stored scores. -/
theorem weight_mono (hC : p.C < 2 ^ 20) (hhd : hd < p.H) (hi : i < p.C) {j k : ℕ} (hj : j ≤ i)
    (hk : k ≤ i) (hle : storedScore p lay m hd i j ≤ storedScore p lay m hd i k) :
    weight p lay m hd i j ≤ weight p lay m hd i k := by
  rw [weight_eq hhd hi hj, weight_eq hhd hi hk]
  refine share_mono hC hi (hj.trans_lt hi) (hk.trans_lt hi) ?_
  rw [level_of_le hj, level_of_le hk]
  exact expOf_mono (by omega)

/-- Exponentials as far apart as the row is long give different weights. -/
theorem not_orderly_of_reversesFar (hC : p.C < 2 ^ 20) (hhd : hd < p.H) (hi : i < p.C)
    (h : ReversesFar p lay m hd i) : ¬ Orderly p lay m hd i := by
  obtain ⟨j, hj, k, hk, hle, hfar⟩ := h
  intro horderly
  have hmono := horderly.mono j hj k hk hle
  rw [weight_eq hhd hi hj, weight_eq hhd hi hk, share_eq hC hi (hj.trans_lt hi),
    share_eq hC hi (hk.trans_lt hi)] at hmono
  rw [← level_of_le hj, ← level_of_le hk] at hfar
  have hsum := le_levelSum lay m hd hi
  have hsum' := levelSum_le p lay m hd i
  have hpos : 0 < levelSum p lay m hd i := by omega
  -- one more in 4096 for each length of the row
  have hstep : level p lay m hd i k * 4096 / levelSum p lay m hd i + 1 ≤
      level p lay m hd i j * 4096 / levelSum p lay m hd i := by
    rw [← Int.add_mul_ediv_right _ 1 hpos.ne', one_mul]
    exact Int.ediv_le_ediv hpos (by omega)
  omega

/-- The weights of every row are shares of 4096. Where the narrowing keeps the order of the products
they follow them, and where it reverses two far enough they do not. -/
theorem orderly_of_narrowsInOrder (hC : p.C < 2 ^ 20) (hhd : hd < p.H) (hi : i < p.C) :
    ((∀ j ≤ i, 0 ≤ weight p lay m hd i j ∧ weight p lay m hd i j ≤ 4096) ∧
      ∑ j ∈ Finset.range (i + 1), weight p lay m hd i j ≤ 4096) ∧
    (NarrowsInOrder p lay m hd i → Orderly p lay m hd i) ∧
    (ReversesFar p lay m hd i → ¬ Orderly p lay m hd i) := by
  have hmem : ∀ j ≤ i, 0 ≤ weight p lay m hd i j ∧ weight p lay m hd i j ≤ 4096 :=
    fun j hj ↦ weight_mem hC hhd hi hj
  have hsum : ∑ j ∈ Finset.range (i + 1), weight p lay m hd i j ≤ 4096 :=
    sum_weight_le hC hhd hi
  refine ⟨⟨hmem, hsum⟩, fun h ↦ ⟨hmem, hsum, ?_⟩, not_orderly_of_reversesFar hC hhd hi⟩
  exact fun j hj k hk hle ↦ weight_mono hC hhd hi hj hk (h j hj k hk hle)

end Order

/-- A query with a coordinate 64 at position 2, and keys with 0, 3200 and -3200 there: the products
are 0, 100 and -100. -/
def orderedKeys : Words WsBuf ℤ
  | .fwdLay, 128 => 64
  | .fwdLay, 256 => 3200
  | .fwdLay, 320 => -3200
  | _, _ => 0

theorem orderly_of_narrowsInOrder_orderedKeys : Orderly (dims specCfg 3) 0 orderedKeys 0 2 :=
  (orderly_of_narrowsInOrder (by decide) (by decide) (by decide)).2.1
    (narrowsInOrder_of_mem fun j hj ↦ by interval_cases j <;> decide +kernel)

/-- The query of position 2 has a coordinate 4096, and the keys have 0, -2500 and -20000 there: the
products are 0, -5000 and -40000. -/
def wrappedKeys : Words WsBuf ℤ
  | .fwdLay, 128 => 4096
  | .fwdLay, 256 => -2500
  | .fwdLay, 320 => -20000
  | _, _ => 0

/-- The position with the smallest product has half of the weight, that with the next one none. -/
theorem not_orderly_wrappedKeys : ¬ ∀ (p : Dims) (lay : ℕ) (m : Words WsBuf ℤ) (hd i : ℕ),
    p.H ∣ p.D → p.C < 2 ^ 20 → Words16 p lay m → hd < p.H → i < p.C → Orderly p lay m hd i := by
  intro h
  have hwords : Words16 (dims specCfg 3) 0 wrappedKeys := by
    intro y _
    unfold wrappedKeys
    split <;> decide
  have horderly := h (dims specCfg 3) 0 wrappedKeys 0 2 (by decide) (by decide) hwords (by decide)
    (by decide)
  have hmono := horderly.mono 2 (le_refl 2) 1 (by decide) (by decide +kernel)
  rw [weight_eq (by decide) (by decide) (le_refl 2), weight_eq (by decide) (by decide) (by decide)]
    at hmono
  exact absurd hmono (by decide +kernel)

end NoOsKernel.Trans
