import NoOsKernel.Lib.BitArray
import Mathlib.Data.Nat.Bitwise
import Mathlib.Data.List.Range

/-!
# Counting the set bits of a bit array

`onesLoop` counts the set bits of a word by clearing the lowest one until none is left, and
`setCount` adds the counts of all words. `setCount_bitSet` and `setCount_bitClr` say how writing one
bit changes the count.
-/

set_option autoImplicit false
set_option relaxedAutoImplicit false

namespace NoOsKernel.Lib

variable {w : ℕ}

/-- The number of set bits of a word. -/
def bitCount (b : BitVec w) : ℕ := (List.range w).countP b.getLsbD

/-- The loop `for (; b; b &= b - 1) n++`, with a bound on its rounds. -/
def onesLoop : ℕ → BitVec w → ℕ
  | 0, _ => 0
  | fuel + 1, b => if b = 0 then 0 else onesLoop fuel (b &&& (b - 1)) + 1

/-- The number of set bits of an array, word by word. -/
def setCount (b : List (BitVec w)) : ℕ := (b.map (onesLoop w)).sum

/-! ### Clearing the lowest bit -/

/-- The number of set bits among the lowest `w` bits of a number. -/
def natCount (w n : ℕ) : ℕ := (List.range w).countP n.testBit

theorem natCount_succ (w n : ℕ) :
    natCount (w + 1) n = natCount w (n / 2) + n % 2 := by
  have hshift : (List.map Nat.succ (List.range w)).countP n.testBit = natCount w (n / 2) := by
    rw [List.countP_map, natCount]
    apply List.countP_congr
    intro i _
    rw [Function.comp_apply, Nat.testBit_succ]
  rw [natCount, List.range_succ_eq_map, List.countP_cons, hshift, Nat.testBit_zero]
  congr 1
  obtain heven | hodd := Nat.mod_two_eq_zero_or_one n
  · simp [heven]
  · simp [hodd]

/-- `n & (n - 1)` has one bit less. -/
theorem natCount_land_pred {w n : ℕ} (hn : n < 2 ^ w) (hne : n ≠ 0) :
    natCount w (n &&& (n - 1)) + 1 = natCount w n := by
  induction w generalizing n with
  | zero =>
    rw [pow_zero] at hn
    omega
  | succ w ih =>
    have hhalf : n / 2 < 2 ^ w := by
      rw [pow_succ] at hn
      omega
    have hlow : (n &&& (n - 1)) % 2 = 0 := by
      have hnot : ¬ (n &&& (n - 1)) % 2 = 1 := by
        rw [Nat.and_mod_two_eq_one]
        omega
      omega
    rw [natCount_succ, natCount_succ, Nat.and_div_two, hlow]
    obtain heven | hodd := Nat.mod_two_eq_zero_or_one n
    · rw [heven, show (n - 1) / 2 = n / 2 - 1 by omega]
      exact ih hhalf (by omega)
    · rw [hodd, show (n - 1) / 2 = n / 2 by omega, Nat.and_self]

theorem bitCount_eq_natCount (b : BitVec w) : bitCount b = natCount w b.toNat := rfl

theorem bitCount_and_pred {b : BitVec w} (hb : b ≠ 0) :
    bitCount (b &&& (b - 1)) + 1 = bitCount b := by
  have hne : b.toNat ≠ 0 := fun h ↦ hb (BitVec.eq_of_toNat_eq (by rw [h]; simp))
  have hpred : (b - 1).toNat = b.toNat - 1 := by
    have hlt := b.isLt
    have hone : (1 : BitVec w).toNat = 1 := by
      change 1 % 2 ^ w = 1
      exact Nat.mod_eq_of_lt (by omega)
    rw [BitVec.toNat_sub_of_le (by rw [BitVec.le_def, hone]; omega), hone]
  rw [bitCount_eq_natCount, bitCount_eq_natCount, BitVec.toNat_and, hpred]
  exact natCount_land_pred b.isLt hne

theorem bitCount_zero : bitCount (0 : BitVec w) = 0 := by
  rw [bitCount, List.countP_eq_zero]
  intro i _
  simp

/-- The loop counts the set bits, if its bound is large enough. -/
theorem onesLoop_eq {fuel : ℕ} {b : BitVec w} (hfuel : bitCount b ≤ fuel) :
    onesLoop fuel b = bitCount b := by
  induction fuel generalizing b with
  | zero => exact (Nat.le_zero.mp hfuel).symm
  | succ fuel ih =>
    rw [onesLoop]
    split_ifs with hb
    · rw [hb, bitCount_zero]
    · have hone := bitCount_and_pred hb
      rw [ih (by omega), hone]

theorem setCount_eq (b : List (BitVec w)) : setCount b = (b.map bitCount).sum := by
  rw [setCount]
  congr 1
  apply List.map_congr_left
  intro x _
  apply onesLoop_eq
  exact List.countP_le_length.trans_eq List.length_range

/-! ### Arrays -/

@[simp] theorem setCount_replicate_zero (n : ℕ) :
    setCount (List.replicate n (0 : BitVec w)) = 0 := by
  rw [setCount_eq, List.map_replicate, bitCount_zero]
  simp

theorem bitGet_cons_of_lt {x : BitVec w} {b : List (BitVec w)} {i : ℕ} (hi : i < w) :
    bitGet (x :: b) i = x.getLsbD i := by
  rw [bitGet, Nat.div_eq_of_lt hi, Nat.mod_eq_of_lt hi, List.getD_cons_zero]

theorem bitGet_cons_add {x : BitVec w} {b : List (BitVec w)} (hw : 0 < w) (i : ℕ) :
    bitGet (x :: b) (w + i) = bitGet b i := by
  rw [bitGet, bitGet, Nat.add_div_left i hw, Nat.add_mod_left,
    List.getD_cons_succ]

/-- Set and clear bits together are all the bits. -/
theorem setCount_add_clearCount (b : List (BitVec w)) :
    setCount b + clearCount b 0 (bitLen b) = bitLen b := by
  obtain rfl | hw := Nat.eq_zero_or_pos w
  · have hnone : ∀ x ∈ b, bitCount x = 0 := fun x _ ↦ rfl
    rw [setCount_eq, List.map_congr_left hnone]
    simp [bitLen, clearCount]
  induction b with
  | nil => rfl
  | cons x b ih =>
    have hword : (List.range w).countP (fun i ↦ !bitGet (x :: b) i) =
        (List.range w).countP (fun i ↦ !x.getLsbD i) := by
      apply List.countP_congr
      intro i hi
      rw [bitGet_cons_of_lt (List.mem_range.mp hi)]
    have hrest : ((List.range (bitLen b)).map (w + ·)).countP (fun i ↦ !bitGet (x :: b) i) =
        clearCount b 0 (bitLen b) := by
      rw [List.countP_map, clearCount, Nat.sub_zero, ← List.range_eq_range']
      apply List.countP_congr
      intro i _
      rw [Function.comp_apply, bitGet_cons_add hw]
    have hsplit : (List.range w).length =
        (List.range w).countP x.getLsbD + (List.range w).countP (fun i ↦ !x.getLsbD i) := by
      rw [List.length_eq_countP_add_countP x.getLsbD]
      simp
    have hlen : bitLen (x :: b) = w + bitLen b := by
      rw [bitLen, bitLen, List.length_cons, Nat.mul_succ, Nat.add_comm]
    rw [hlen, clearCount, Nat.sub_zero, ← List.range_eq_range', List.range_add, List.countP_append,
      hword, hrest, setCount_eq, List.map_cons, List.sum_cons, ← setCount_eq, bitCount]
    rw [List.length_range] at hsplit
    omega

/-- Setting a clear bit adds one to the count. -/
theorem setCount_bitSet {b : List (BitVec w)} {i : ℕ} (hi : i < bitLen b)
    (hclear : bitGet b i = false) : setCount (bitSet b i) = setCount b + 1 := by
  have hbefore := setCount_add_clearCount b
  have hafter := setCount_add_clearCount (bitSet b i)
  have hlen : bitLen (bitSet b i) = bitLen b := by rw [bitLen, bitLen, length_bitSet]
  have hless := clearCount_bitSet (Nat.zero_le i) hi hi hclear
  rw [hlen] at hafter
  omega

/-- Clearing a set bit takes one from the count. -/
theorem setCount_bitClr {b : List (BitVec w)} {i : ℕ} (hi : i < bitLen b)
    (hset : bitGet b i = true) : setCount (bitClr b i) + 1 = setCount b := by
  have hbefore := setCount_add_clearCount b
  have hafter := setCount_add_clearCount (bitClr b i)
  have hlen : bitLen (bitClr b i) = bitLen b := by rw [bitLen, bitLen, length_bitClr]
  have hmore := clearCount_bitClr (Nat.zero_le i) hi hi hset
  rw [hlen] at hafter
  omega

end NoOsKernel.Lib
