import NoOsKernel.Trans.Forward

/-!
# The reciprocal root of the layer norm

`rsqrt24` in `kernel/noc/trans.c` extracts the root of a mantissa `m` from `2 ^ 28` to `2 ^ 30` bit by
bit. A bit that is taken goes into the root twice: it is added to form the trial root `t`, and again
when `t` becomes the root. So the first bit already makes the root `2 ^ 15`, whose square is above
every mantissa, and no other bit is taken (`rsqrtLoop_mantissa`). What comes out depends on the
length of the argument alone (`rsqrt24_eq`), and is the reciprocal root only where that happens to
round to the same power of two.
-/

set_option autoImplicit false
set_option relaxedAutoImplicit false

namespace NoOsKernel.Trans

/-! ### Leading zeros -/

/-- A mask of the bits from `j` on is clear exactly in the numbers below `2 ^ j`. -/
theorem and_high_eq_zero_iff {mask v : BitVec 32} {j : ℕ}
    (hmask : ∀ i < 32, mask.getLsbD i = decide (j ≤ i)) : v &&& mask = 0 ↔ v.toNat < 2 ^ j := by
  constructor
  · intro hzero
    refine Nat.lt_pow_two_of_testBit _ fun i hi ↦ ?_
    by_cases hlt : i < 32
    · have hbit : (v &&& mask).getLsbD i = false := by
        rw [hzero]
        exact BitVec.getLsbD_zero
      rw [BitVec.getLsbD_and, hmask i hlt, decide_eq_true hi, Bool.and_true] at hbit
      exact hbit
    · exact BitVec.getLsbD_of_ge v i (Nat.not_lt.mp hlt)
  · intro hlt
    refine BitVec.eq_of_getLsbD_eq fun i hi ↦ ?_
    rw [BitVec.getLsbD_and, hmask i hi, show (0 : BitVec 32).getLsbD i = false from BitVec.getLsbD_zero]
    by_cases hj : j ≤ i
    · have hbit : v.getLsbD i = false :=
        Nat.testBit_lt_two_pow (hlt.trans_le (Nat.pow_le_pow_right (by decide) hj))
      rw [hbit, Bool.false_and]
    · rw [decide_eq_false hj, Bool.and_false]

/-- One step of `clz32`: where the `k` high bits are clear they are counted and shifted out. -/
def clzStep (mask : BitVec 32) (k : ℕ) (nv : ℕ × BitVec 32) : ℕ × BitVec 32 :=
  if nv.2 &&& mask = 0 then (nv.1 + k, nv.2 <<< k) else nv

theorem clz32_eq (v : BitVec 32) :
    clz32 v = (clzStep 0x80000000 1 (clzStep 0xc0000000 2 (clzStep 0xf0000000 4
      (clzStep 0xff000000 8 (clzStep 0xffff0000 16 (0, v)))))).1 := by
  simp only [clz32, clzStep]
  split_ifs <;> rfl

/-- What the steps of `clz32` keep: the rest is the number without the zeros counted. -/
structure ClzInv (v : BitVec 32) (floor : ℕ) (nv : ℕ × BitVec 32) : Prop where
  rest : nv.2.toNat = v.toNat * 2 ^ nv.1
  low : 2 ^ floor ≤ nv.2.toNat

theorem ClzInv.step {v : BitVec 32} {floor : ℕ} {nv : ℕ × BitVec 32} (h : ClzInv v floor nv)
    (mask : BitVec 32) (k floor' : ℕ) (hmask : ∀ i < 32, mask.getLsbD i = decide (32 - k ≤ i))
    (hk : k ≤ 32) (hfloor : floor' ≤ 32 - k) (hfloor' : floor' ≤ floor + k) :
    ClzInv v floor' (clzStep mask k nv) := by
  unfold clzStep
  split_ifs with hclear
  · rw [and_high_eq_zero_iff hmask] at hclear
    have hfits : nv.2.toNat * 2 ^ k < 2 ^ 32 := by
      calc nv.2.toNat * 2 ^ k < 2 ^ (32 - k) * 2 ^ k :=
            Nat.mul_lt_mul_of_pos_right hclear (Nat.two_pow_pos k)
        _ = 2 ^ 32 := by rw [← Nat.pow_add, Nat.sub_add_cancel hk]
    have hval : (nv.2 <<< k).toNat = nv.2.toNat * 2 ^ k := by
      rw [BitVec.toNat_shiftLeft, Nat.shiftLeft_eq, Nat.mod_eq_of_lt hfits]
    constructor
    · change (nv.2 <<< k).toNat = v.toNat * 2 ^ (nv.1 + k)
      rw [hval, h.rest, Nat.mul_assoc, Nat.pow_add]
    · change 2 ^ floor' ≤ (nv.2 <<< k).toNat
      rw [hval]
      calc 2 ^ floor' ≤ 2 ^ (floor + k) := Nat.pow_le_pow_right (by decide) hfloor'
        _ = 2 ^ floor * 2 ^ k := Nat.pow_add ..
        _ ≤ nv.2.toNat * 2 ^ k := Nat.mul_le_mul_right _ h.low
  · rw [and_high_eq_zero_iff hmask, Nat.not_lt] at hclear
    exact ⟨h.rest, (Nat.pow_le_pow_right (by decide) hfloor).trans hclear⟩

/-- `clz32` counts the zeros in front of the first bit. -/
theorem log2_eq_sub_clz32 {v : BitVec 32} (hv : v.toNat ≠ 0) :
    clz32 v ≤ 31 ∧ v.toNat.log2 = 31 - clz32 v := by
  have h₀ : ClzInv v 0 (0, v) := ⟨(Nat.mul_one _).symm, Nat.pos_of_ne_zero hv⟩
  have h₁ := h₀.step 0xffff0000 16 16 (by decide) (by decide) (by decide) (by decide)
  have h₂ := h₁.step 0xff000000 8 24 (by decide) (by decide) (by decide) (by decide)
  have h₃ := h₂.step 0xf0000000 4 28 (by decide) (by decide) (by decide) (by decide)
  have h₄ := h₃.step 0xc0000000 2 30 (by decide) (by decide) (by decide) (by decide)
  have h₅ := h₄.step 0x80000000 1 31 (by decide) (by decide) (by decide) (by decide)
  rw [clz32_eq]
  generalize clzStep 0x80000000 1 _ = nv at h₅ ⊢
  have hhigh := nv.2.isLt
  have hlow := h₅.low
  rw [h₅.rest] at hhigh hlow
  have hcount : nv.1 ≤ 31 := by
    have hpow : 2 ^ nv.1 < 2 ^ 32 :=
      (Nat.le_mul_of_pos_left _ (Nat.pos_of_ne_zero hv)).trans_lt hhigh
    exact Nat.le_of_lt_succ ((Nat.pow_lt_pow_iff_right (by decide)).mp hpow)
  have hsplit : 2 ^ (31 - nv.1) * 2 ^ nv.1 = 2 ^ 31 := by
    rw [← Nat.pow_add, Nat.sub_add_cancel hcount]
  refine ⟨hcount, (Nat.log2_eq_iff hv).mpr ⟨?_, ?_⟩⟩
  · exact Nat.le_of_mul_le_mul_right (hsplit ▸ hlow) (Nat.two_pow_pos _)
  · refine Nat.lt_of_mul_lt_mul_right (a := 2 ^ nv.1) ?_
    rw [Nat.pow_succ, Nat.mul_right_comm, hsplit]
    exact hhigh

/-! ### The loop -/

/-- The bit of a round. -/
theorem toNat_bit {k : ℕ} (hk : k ≤ 14) : (((1 <<< k : ℕ) : BitVec 32)).toNat = 2 ^ k := by
  have hpow : 2 ^ k ≤ 2 ^ 14 := Nat.pow_le_pow_right (by decide) hk
  rw [Nat.shiftLeft_eq, Nat.one_mul]
  exact (BitVec.toNat_ofNat ..).trans (Nat.mod_eq_of_lt (by omega))

/-- A root of `2 ^ 15` is above every mantissa with every further bit, so it stays. -/
theorem rsqrtLoop_stays {k : ℕ} (hk : k ≤ 14) {m : BitVec 32} (hm : m.toNat < 2 ^ 30) :
    rsqrtLoop k m 0x8000 = 0x8000 := by
  induction k with
  | zero => rfl
  | succ k ih =>
    have hpow : 2 ^ k ≤ 2 ^ 13 := Nat.pow_le_pow_right (by decide) (by omega)
    have hroot : (0x8000 : BitVec 32).toNat = 2 ^ 15 := rfl
    have htrial : ((0x8000 : BitVec 32) + (1 <<< k : ℕ)).toNat = 2 ^ 15 + 2 ^ k := by
      rw [BitVec.toNat_add, toNat_bit (by omega), hroot]
      exact Nat.mod_eq_of_lt (by omega)
    have hsquare : ¬ (((0x8000 : BitVec 32) + (1 <<< k : ℕ)) *
        ((0x8000 : BitVec 32) + (1 <<< k : ℕ)) ≤ m) := by
      have hsmall : (2 ^ 15 + 2 ^ k) * (2 ^ 15 + 2 ^ k) ≤ (2 ^ 15 + 2 ^ 13) * (2 ^ 15 + 2 ^ 13) :=
        Nat.mul_le_mul (by omega) (by omega)
      have hlarge : 2 ^ 15 * 2 ^ 15 ≤ (2 ^ 15 + 2 ^ k) * (2 ^ 15 + 2 ^ k) :=
        Nat.mul_le_mul (Nat.le_add_right _ _) (Nat.le_add_right _ _)
      rw [BitVec.le_def, BitVec.toNat_mul, htrial, Nat.mod_eq_of_lt (by omega)]
      omega
    rw [rsqrtLoop, if_neg hsquare]
    exact ih (by omega)

/-- The root of every mantissa is `2 ^ 15`. -/
theorem rsqrtLoop_mantissa {m : BitVec 32} (hlow : 2 ^ 28 ≤ m.toNat) (hhigh : m.toNat < 2 ^ 30) :
    rsqrtLoop 15 m 0 = 0x8000 := by
  have hfirst : (((0 : BitVec 32) + (1 <<< 14 : ℕ)) *
      ((0 : BitVec 32) + (1 <<< 14 : ℕ)) ≤ m) := by
    rw [BitVec.le_def]
    exact hlow
  have hrest : (m - ((0 : BitVec 32) + (1 <<< 14 : ℕ)) *
      ((0 : BitVec 32) + (1 <<< 14 : ℕ))).toNat < 2 ^ 30 := by
    rw [BitVec.toNat_sub_of_le hfirst]
    exact (Nat.sub_le _ _).trans_lt hhigh
  rw [rsqrtLoop, if_pos hfirst]
  exact rsqrtLoop_stays (le_refl 14) hrest

/-! ### The closed form -/

/-- The mantissa `rsqrt24` takes the root of. -/
def mantissa (n : BitVec 32) (shift : ℕ) : BitVec 32 :=
  if shift ≤ 28 then n <<< (28 - shift) else n >>> (shift - 28)

theorem mantissa_bounds {n : BitVec 32} {shift : ℕ} (hlow : 2 ^ shift ≤ n.toNat)
    (hhigh : n.toNat < 2 ^ (shift + 2)) :
    2 ^ 28 ≤ (mantissa n shift).toNat ∧ (mantissa n shift).toNat < 2 ^ 30 := by
  unfold mantissa
  split_ifs with hshift
  · have hscaled : 2 ^ 28 = 2 ^ shift * 2 ^ (28 - shift) := by
      rw [← Nat.pow_add, Nat.add_sub_cancel' hshift]
    have hscaled' : 2 ^ 30 = 2 ^ (shift + 2) * 2 ^ (28 - shift) := by
      rw [← Nat.pow_add]
      congr 1
      omega
    have hbelow : n.toNat * 2 ^ (28 - shift) < 2 ^ 30 := by
      rw [hscaled']
      exact Nat.mul_lt_mul_of_pos_right hhigh (Nat.two_pow_pos _)
    rw [BitVec.toNat_shiftLeft, Nat.shiftLeft_eq, Nat.mod_eq_of_lt (hbelow.trans (by decide)), hscaled]
    exact ⟨Nat.mul_le_mul_right _ hlow, hbelow⟩
  · have hscaled : 2 ^ shift = 2 ^ 28 * 2 ^ (shift - 28) := by
      rw [← Nat.pow_add]
      congr 1
      omega
    have hscaled' : 2 ^ (shift + 2) = 2 ^ 30 * 2 ^ (shift - 28) := by
      rw [← Nat.pow_add]
      congr 1
      omega
    rw [BitVec.toNat_ushiftRight, Nat.shiftRight_eq_div_pow]
    constructor
    · rw [Nat.le_div_iff_mul_le (Nat.two_pow_pos _), ← hscaled]
      exact hlow
    · rw [Nat.div_lt_iff_lt_mul (Nat.two_pow_pos _), ← hscaled']
      exact hhigh

/-- The root before the final division: half as many bits as the argument has. -/
theorem rootOf_shift {half : ℕ} (hhalf : half ≤ 15) :
    (if half ≤ 14 then (0x8000 : BitVec 32) >>> (14 - half)
      else (0x8000 : BitVec 32) <<< (half - 14)) = BitVec.ofNat 32 (2 ^ (half + 1)) := by
  revert half
  decide

/-- `rsqrt24` gives `2 ^ 16` divided by a power of two with half as many bits as the argument. -/
theorem rsqrt24_eq {n : BitVec 32} (hn : n.toNat ≠ 0) :
    rsqrt24 n = (2 ^ (15 - n.toNat.log2 / 2) : ℕ) := by
  obtain ⟨hclz, hlog⟩ := log2_eq_sub_clz32 hn
  have hsmall : ¬ (n < 1) := by
    rw [BitVec.lt_def]
    have hone : (1 : BitVec 32).toNat = 1 := rfl
    omega
  have hhalf : (31 - clz32 n) / 2 * 2 / 2 = n.toNat.log2 / 2 := by
    rw [hlog, Nat.mul_div_cancel _ (by decide)]
  have hhalfLe : n.toNat.log2 / 2 ≤ 15 := by omega
  have hbits : 2 ^ 28 ≤ (mantissa n ((31 - clz32 n) / 2 * 2)).toNat ∧ _ := mantissa_bounds
    ((Nat.pow_le_pow_right (by decide) (by omega)).trans (Nat.log2_self_le hn))
    (Nat.lt_log2_self.trans_le (Nat.pow_le_pow_right (by decide) (by omega)))
  have hroot := rsqrtLoop_mantissa hbits.1 hbits.2
  unfold mantissa at hroot
  simp only [rsqrt24, if_neg hsmall, hroot, hhalf, rootOf_shift hhalfLe]
  generalize n.toNat.log2 / 2 = half at hhalfLe
  revert half
  decide

/-! ### The documented root -/

/-- The length of a number is twice that of its root. -/
theorem log2_sqrt {n : ℕ} (hn : n ≠ 0) : n.log2 / 2 = (Nat.sqrt n).log2 := by
  have hroot : Nat.sqrt n ≠ 0 := fun hzero ↦ hn (Nat.sqrt_eq_zero.mp hzero)
  symm
  rw [Nat.log2_eq_iff hroot]
  constructor
  · rw [Nat.le_sqrt, ← Nat.pow_add]
    exact (Nat.pow_le_pow_right (by decide) (by omega)).trans (Nat.log2_self_le hn)
  · rw [Nat.sqrt_lt, ← Nat.pow_add]
    exact Nat.lt_log2_self.trans_le (Nat.pow_le_pow_right (by decide) (by omega))

/-- What the comment above `rsqrt24` says of an argument: `(1 << 24) / isqrt(n) >> 8`, and `0` is
taken as `1`. -/
def Documented (n : BitVec 32) : Prop :=
  (1 ≤ n.toNat → rsqrt24 n = (2 ^ 24 / Nat.sqrt n.toNat / 2 ^ 8 : ℕ)) ∧ rsqrt24 0 = rsqrt24 1

/-- The quotient by the root `s` is between two powers of two, and is the lower one exactly for an
`s` near the upper end of its length. -/
theorem quotient_eq_pow_iff {s : ℕ} (hs : s ≠ 0) (hlt : s < 2 ^ 16) :
    2 ^ 24 / s / 2 ^ 8 = 2 ^ (15 - s.log2) ↔ 2 ^ 16 < s * (2 ^ (15 - s.log2) + 1) := by
  have hlog : s.log2 ≤ 15 := Nat.le_of_lt_succ ((Nat.log2_lt hs).mpr hlt)
  have hdiv : 2 ^ 24 / s / 2 ^ 8 = 2 ^ 16 / s := Nat.div_right_comm ..
  have hlow : s * 2 ^ (15 - s.log2) ≤ 2 ^ 16 := by
    calc s * 2 ^ (15 - s.log2) ≤ 2 ^ (s.log2 + 1) * 2 ^ (15 - s.log2) :=
          Nat.mul_le_mul_right _ Nat.lt_log2_self.le
      _ = 2 ^ 16 := by
          rw [← Nat.pow_add]
          congr 1
          omega
  rw [hdiv, Nat.div_eq_iff (Nat.pos_of_ne_zero hs), Nat.mul_add, Nat.mul_one, Nat.mul_comm _ s]
  omega

/-- The result is the documented one exactly for `0` and for the numbers whose root is near the upper
end of its length. -/
theorem rsqrt24_documented_iff (n : BitVec 32) :
    Documented n ↔ n = 0 ∨
      2 ^ 16 < Nat.sqrt n.toNat * (2 ^ (15 - (Nat.sqrt n.toNat).log2) + 1) := by
  have hzero : rsqrt24 0 = rsqrt24 1 := by decide
  by_cases hn : n = 0
  · subst hn
    exact iff_of_true ⟨fun h ↦ absurd h (by decide), hzero⟩ (Or.inl rfl)
  · have hpos : n.toNat ≠ 0 := fun h ↦ hn (BitVec.eq_of_toNat_eq h)
    have hroot : Nat.sqrt n.toNat ≠ 0 := fun h ↦ hpos (Nat.sqrt_eq_zero.mp h)
    have hlt : Nat.sqrt n.toNat < 2 ^ 16 := by
      rw [Nat.sqrt_lt]
      exact n.isLt
    rw [← quotient_eq_pow_iff hroot hlt, or_iff_right hn, Documented, and_iff_left hzero,
      rsqrt24_eq hpos, log2_sqrt hpos, Nat.cast_inj]
    exact ⟨fun h ↦ (h (Nat.pos_of_ne_zero hpos)).symm, fun h _ ↦ h.symm⟩

/-- The root of `1` comes out as `2`. -/
theorem not_forall_rsqrt24_documented : ¬ ∀ n : BitVec 32, Documented n := by
  intro hall
  have hone := (hall 1).1 (by decide)
  revert hone
  decide

end NoOsKernel.Trans
