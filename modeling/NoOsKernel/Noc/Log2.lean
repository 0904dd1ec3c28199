import Mathlib

/-!
# The logarithm of the loss

`log2_mbit`, which `kernel/noc/train.c` and `kernel/noc/trans.c` both have: a thousand times the
binary logarithm, from a table of 16 entries.
-/

set_option autoImplicit false
set_option relaxedAutoImplicit false

namespace NoOsKernel.Noc

/-- `log2t` -/
def log2t : List ℕ :=
  [0, 88, 170, 248, 322, 392, 459, 524, 585, 644, 700, 755, 807, 858, 907, 954]

/-- The index `log2_mbit` looks up: the four bits behind the first one. For `0` the subtraction wraps
around. -/
def log2Index (n : ℕ) : ℕ :=
  let b := n.log2
  let m := if 8 ≤ b then n >>> (b - 8) else n <<< (8 - b)
  (m + (2 ^ 32 - 256)) % 2 ^ 32 / 16

/-- `log2_mbit`; its loop counts the bits behind the first one. -/
def log2Mbit (n : ℕ) : ℕ := n.log2 * 1000 + log2t.getD (log2Index n) 0

/-! ### The logarithm is monotone -/

variable {m n : ℕ}

/-- The mantissa, normalized to `[256, 512)`. -/
def log2Mantissa (n : ℕ) : ℕ := if 8 ≤ n.log2 then n >>> (n.log2 - 8) else n <<< (8 - n.log2)

theorem log2Mantissa_bounds (hn : n ≠ 0) : 256 ≤ log2Mantissa n ∧ log2Mantissa n < 512 := by
  have hlow := Nat.log2_self_le hn
  have hhigh : n < 2 ^ (n.log2 + 1) := Nat.lt_log2_self
  unfold log2Mantissa
  split_ifs with hb
  · obtain ⟨k, hk⟩ : ∃ k, n.log2 = k + 8 := ⟨n.log2 - 8, by omega⟩
    rw [hk] at hlow hhigh ⊢
    rw [Nat.add_sub_cancel, Nat.shiftRight_eq_div_pow]
    refine ⟨(Nat.le_div_iff_mul_le (Nat.two_pow_pos k)).mpr ?_,
      (Nat.div_lt_iff_lt_mul (Nat.two_pow_pos k)).mpr ?_⟩
    · rwa [pow_add, mul_comm] at hlow
    · rwa [show k + 8 + 1 = k + 9 by omega, pow_add, mul_comm] at hhigh
  · obtain ⟨k, hk⟩ : ∃ k, 8 - n.log2 = k := ⟨_, rfl⟩
    have hsum : n.log2 + k = 8 := by omega
    rw [hk, Nat.shiftLeft_eq]
    have hpow : 2 ^ n.log2 * 2 ^ k = 256 := by
      rw [← pow_add, hsum]
      rfl
    have hpow' : 2 ^ (n.log2 + 1) * 2 ^ k = 512 := by
      rw [← pow_add, show n.log2 + 1 + k = 9 by omega]
      rfl
    refine ⟨?_, ?_⟩
    · rw [← hpow]
      exact Nat.mul_le_mul_right _ hlow
    · rw [← hpow']
      exact Nat.mul_lt_mul_of_pos_right hhigh (Nat.two_pow_pos k)

theorem log2Index_eq (hn : n ≠ 0) : log2Index n = (log2Mantissa n - 256) / 16 := by
  have hbounds := log2Mantissa_bounds hn
  change (log2Mantissa n + (2 ^ 32 - 256)) % 2 ^ 32 / 16 = _
  omega

/-- The table has an entry for every number but zero. -/
theorem log2Index_lt (hn : n ≠ 0) : log2Index n < 16 := by
  have hbounds := log2Mantissa_bounds hn
  rw [log2Index_eq hn]
  omega

theorem log2t_mono {i j : ℕ} (hij : i ≤ j) (hj : j < 16) : log2t.getD i 0 ≤ log2t.getD j 0 := by
  have htable : ∀ j < 16, ∀ i ≤ j, log2t.getD i 0 ≤ log2t.getD j 0 := by decide
  exact htable j hj i hij

theorem log2t_lt (i : ℕ) : log2t.getD i 0 < 1000 := by
  obtain hlt | hge := Nat.lt_or_ge i 16
  · revert i
    decide
  · rw [List.getD_eq_default _ _ hge]
    decide

theorem log2Mbit_mono (hm : m ≠ 0) (hmn : m ≤ n) : log2Mbit m ≤ log2Mbit n := by
  have hn : n ≠ 0 := by omega
  have hlog : m.log2 ≤ n.log2 := (Nat.le_log2 hn).mpr ((Nat.log2_self_le hm).trans hmn)
  unfold log2Mbit
  obtain heq | hlt := Nat.eq_or_lt_of_le hlog
  · have hmantissa : log2Mantissa m ≤ log2Mantissa n := by
      unfold log2Mantissa
      rw [heq]
      split_ifs
      · rw [Nat.shiftRight_eq_div_pow, Nat.shiftRight_eq_div_pow]
        exact Nat.div_le_div_right hmn
      · rw [Nat.shiftLeft_eq, Nat.shiftLeft_eq]
        exact Nat.mul_le_mul_right _ hmn
    have hindex : log2Index m ≤ log2Index n := by
      rw [log2Index_eq hm, log2Index_eq hn]
      omega
    rw [heq]
    exact Nat.add_le_add_left (log2t_mono hindex (log2Index_lt hn)) _
  · have htable := log2t_lt (log2Index m)
    omega

end NoOsKernel.Noc
