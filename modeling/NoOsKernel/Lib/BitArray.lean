import Mathlib.Algebra.Order.Group.Nat
import Mathlib.Tactic.Push

/-!
# Bit arrays packed into machine words

A bit array is a list of `w`-bit words; bit `i` is bit `i % w` of word `i / w`. Reading outside
the list gives `false` and writing outside it changes nothing. `firstClear` is the linear first-fit
search allocators make, and `clearCount` the number of bits it can still find.
-/

set_option autoImplicit false
set_option relaxedAutoImplicit false

namespace NoOsKernel.Lib

variable {w : ℕ}

/-- The bit at an index. -/
def bitGet (b : List (BitVec w)) (i : ℕ) : Bool := (b.getD (i / w) 0).getLsbD (i % w)

/-- The array with a bit set. -/
def bitSet (b : List (BitVec w)) (i : ℕ) : List (BitVec w) :=
  b.set (i / w) (b.getD (i / w) 0 ||| 1#w <<< (i % w))

/-- The array with a bit cleared. -/
def bitClr (b : List (BitVec w)) (i : ℕ) : List (BitVec w) :=
  b.set (i / w) (b.getD (i / w) 0 &&& ~~~(1#w <<< (i % w)))

/-- The number of bits. -/
def bitLen (b : List (BitVec w)) : ℕ := w * b.length

@[simp] theorem length_bitSet (b : List (BitVec w)) (i : ℕ) : (bitSet b i).length = b.length :=
  List.length_set

@[simp] theorem length_bitClr (b : List (BitVec w)) (i : ℕ) : (bitClr b i).length = b.length :=
  List.length_set

/-- A word index inside the array, from a bit index inside it. -/
theorem div_lt_length {b : List (BitVec w)} {i : ℕ} (hi : i < bitLen b) : i / w < b.length :=
  Nat.div_lt_of_lt_mul hi

/-- Bits beyond the end read as clear. -/
theorem bitGet_of_le {b : List (BitVec w)} {i : ℕ} (hi : bitLen b ≤ i) : bitGet b i = false := by
  rcases Nat.eq_zero_or_pos w with rfl | hw
  · simp [bitGet]
  · have hword : b.length ≤ i / w := (Nat.le_div_iff_mul_le hw).mpr (by
      rw [Nat.mul_comm]; exact hi)
    rw [bitGet, List.getD_eq_getElem?_getD, List.getElem?_eq_none hword]
    exact BitVec.getLsbD_zero

/-- Writing a bit beyond the end changes nothing. -/
theorem bitSet_of_le {b : List (BitVec w)} {i : ℕ} (hi : bitLen b ≤ i) : bitSet b i = b := by
  rcases Nat.eq_zero_or_pos w with rfl | hw
  · exact List.ext_getElem (length_bitSet b i) fun k hk hk' ↦ BitVec.eq_of_zero_length rfl
  · have hword : b.length ≤ i / w := (Nat.le_div_iff_mul_le hw).mpr (by
      rw [Nat.mul_comm]; exact hi)
    rw [bitSet, List.set_eq_of_length_le hword]

/-- Clearing a bit beyond the end changes nothing. -/
theorem bitClr_of_le {b : List (BitVec w)} {i : ℕ} (hi : bitLen b ≤ i) : bitClr b i = b := by
  rcases Nat.eq_zero_or_pos w with rfl | hw
  · exact List.ext_getElem (length_bitClr b i) fun k hk hk' ↦ BitVec.eq_of_zero_length rfl
  · have hword : b.length ≤ i / w := (Nat.le_div_iff_mul_le hw).mpr (by
      rw [Nat.mul_comm]; exact hi)
    rw [bitClr, List.set_eq_of_length_le hword]

@[simp] theorem bitGet_replicate_zero (n i : ℕ) :
    bitGet (List.replicate n (0 : BitVec w)) i = false := by
  unfold bitGet
  rw [List.getD_eq_getElem?_getD, List.getElem?_replicate]
  split_ifs <;> exact BitVec.getLsbD_zero

/-- Two bits of one word are the same bit when their indices in the word agree. -/
theorem mod_eq_iff_of_div_eq {i j : ℕ} (hdiv : j / w = i / w) : j % w = i % w ↔ j = i := by
  constructor
  · intro hmod
    rw [← Nat.div_add_mod j w, hdiv, hmod, Nat.div_add_mod]
  · rintro rfl
    rfl

/-- The bits of a one-bit mask. -/
theorem getLsbD_mask {k m : ℕ} (hk : k < w) : (1#w <<< m).getLsbD k = decide (k = m) := by
  rw [BitVec.getLsbD_shiftLeft, BitVec.getLsbD_one, Bool.eq_iff_iff]
  simp only [Bool.and_eq_true, decide_eq_true_eq, Bool.not_eq_true', decide_eq_false_iff_not]
  omega

/-- Clearing the low bits rounds down to a multiple of a power of two. -/
theorem and_not_low (v : BitVec w) (k : ℕ) :
    v &&& ~~~(BitVec.ofNat w (2 ^ k - 1)) = v >>> k <<< k := by
  apply BitVec.eq_of_getLsbD_eq
  intro i hi
  rw [BitVec.getLsbD_and, BitVec.getLsbD_not, BitVec.getLsbD_ofNat, Nat.testBit_two_pow_sub_one,
    BitVec.getLsbD_shiftLeft, BitVec.getLsbD_ushiftRight]
  by_cases hlow : i < k
  · simp [hlow]
  · rw [show k + (i - k) = i by omega]
    simp [hlow, hi]

/-- Replacing the word of bit `i` by a word `x`. -/
theorem bitGet_set {b : List (BitVec w)} {i : ℕ} (hi : i < bitLen b) (x : BitVec w) (j : ℕ) :
    bitGet (b.set (i / w) x) j = if j / w = i / w then x.getLsbD (j % w) else bitGet b j := by
  unfold bitGet
  rw [List.getD_eq_getElem?_getD]
  split_ifs with hsame
  · rw [hsame, List.getElem?_set_self (div_lt_length hi), Option.getD_some]
  · rw [List.getElem?_set_ne (Ne.symm hsame), List.getD_eq_getElem?_getD]

/-- Setting a bit inside the array. -/
theorem bitGet_bitSet {b : List (BitVec w)} {i : ℕ} (hi : i < bitLen b) (j : ℕ) :
    bitGet (bitSet b i) j = (decide (j = i) || bitGet b j) := by
  have hw : 0 < w := Nat.pos_of_ne_zero fun h ↦ by simp [bitLen, h] at hi
  rw [bitSet, bitGet_set hi, BitVec.getLsbD_or, getLsbD_mask (Nat.mod_lt _ hw)]
  split_ifs with hsame
  · rw [Bool.or_comm, bitGet, hsame]
    congr 1
    rw [decide_eq_decide, mod_eq_iff_of_div_eq hsame]
  · have hne : j ≠ i := fun h ↦ hsame (by rw [h])
    simp [hne]

/-- Clearing a bit inside the array. -/
theorem bitGet_bitClr {b : List (BitVec w)} {i : ℕ} (hi : i < bitLen b) (j : ℕ) :
    bitGet (bitClr b i) j = (!decide (j = i) && bitGet b j) := by
  have hw : 0 < w := Nat.pos_of_ne_zero fun h ↦ by simp [bitLen, h] at hi
  have hmod := Nat.mod_lt j hw
  rw [bitClr, bitGet_set hi, BitVec.getLsbD_and, BitVec.getLsbD_not, getLsbD_mask hmod]
  split_ifs with hsame
  · simp only [hmod, decide_true, Bool.true_and, mod_eq_iff_of_div_eq hsame]
    rw [Bool.and_comm, bitGet, hsame]
  · have hne : j ≠ i := fun h ↦ hsame (by rw [h])
    simp [hne]

/-- Arrays of one length with the same bits are equal. -/
theorem eq_of_bitGet (hw : 0 < w) {b b' : List (BitVec w)} (hlen : b.length = b'.length)
    (hbits : ∀ i, bitGet b i = bitGet b' i) : b = b' := by
  apply List.ext_getElem hlen
  intro k hk hk'
  apply BitVec.eq_of_getLsbD_eq
  intro j hj
  have hbit := hbits (k * w + j)
  have hdiv : (k * w + j) / w = k := by
    rw [Nat.mul_comm, Nat.mul_add_div hw, Nat.div_eq_of_lt hj, Nat.add_zero]
  have hmod : (k * w + j) % w = j := by
    rw [Nat.mul_comm, Nat.mul_add_mod, Nat.mod_eq_of_lt hj]
  rwa [bitGet, bitGet, hdiv, hmod, List.getD_eq_getElem?_getD, List.getElem?_eq_getElem hk,
    List.getD_eq_getElem?_getD, List.getElem?_eq_getElem hk'] at hbit

/-- Clearing a bit that was set undoes setting it. -/
theorem bitClr_bitSet {b : List (BitVec w)} {i : ℕ} (hi : i < bitLen b)
    (hclear : bitGet b i = false) : bitClr (bitSet b i) i = b := by
  have hw : 0 < w := Nat.pos_of_ne_zero fun h ↦ by simp [bitLen, h] at hi
  have hi' : i < bitLen (bitSet b i) := by rwa [bitLen, length_bitSet]
  apply eq_of_bitGet hw
  · rw [length_bitClr, length_bitSet]
  · intro j
    rw [bitGet_bitClr hi', bitGet_bitSet hi]
    by_cases hj : j = i
    · simp [hj, hclear]
    · simp [hj]

/-! ### First-fit search -/

/-- The first clear bit with an index in `[lo, hi)`. -/
def firstClear (b : List (BitVec w)) (lo hi : ℕ) : Option ℕ :=
  (List.range' lo (hi - lo)).find? fun i ↦ !bitGet b i

/-- The number of clear bits with an index in `[lo, hi)`. -/
def clearCount (b : List (BitVec w)) (lo hi : ℕ) : ℕ :=
  (List.range' lo (hi - lo)).countP fun i ↦ !bitGet b i

theorem firstClear_eq_some {b : List (BitVec w)} {lo hi i : ℕ} (h : firstClear b lo hi = some i) :
    lo ≤ i ∧ i < hi ∧ bitGet b i = false := by
  have hmem := List.mem_of_find?_eq_some h
  have hclear := List.find?_some h
  rw [List.mem_range'_1] at hmem
  exact ⟨hmem.1, by omega, by simpa using hclear⟩

theorem firstClear_of_clear {b : List (BitVec w)} {lo hi : ℕ} (hlt : lo < hi)
    (hclear : bitGet b lo = false) : firstClear b lo hi = some lo := by
  obtain ⟨n, hn⟩ : ∃ n, hi - lo = n + 1 := ⟨hi - lo - 1, by omega⟩
  rw [firstClear, hn, List.range'_succ, List.find?_cons_of_pos (by simp [hclear])]

theorem firstClear_eq_none {b : List (BitVec w)} {lo hi : ℕ} (h : firstClear b lo hi = none) :
    clearCount b lo hi = 0 := by
  rw [clearCount, List.countP_eq_zero]
  exact fun i hi' ↦ by simpa using List.find?_eq_none.mp h i hi'

/-- A predicate that holds at one more element of a list without duplicates counts one more. -/
theorem countP_eq_add_one {α : Type*} {l : List α} (hnodup : l.Nodup) {a : α} (ha : a ∈ l)
    {p q : α → Bool} (hp : p a = false) (hq : q a = true) (hsame : ∀ x ≠ a, p x = q x) :
    l.countP q = l.countP p + 1 := by
  classical
  have hperm := List.perm_cons_erase ha
  have hnotin : a ∉ l.erase a := fun h ↦ ((List.Nodup.mem_erase_iff hnodup).mp h).1 rfl
  have hrest : (l.erase a).countP q = (l.erase a).countP p := by
    apply List.countP_congr
    intro x hx
    rw [hsame x fun heq ↦ hnotin (heq ▸ hx)]
  rw [hperm.countP_eq, hperm.countP_eq, List.countP_cons, List.countP_cons, hrest, hp, hq]
  rfl

/-- Setting a clear bit of the range leaves one clear bit less in it. -/
theorem clearCount_bitSet {b : List (BitVec w)} {lo hi i : ℕ} (hlo : lo ≤ i) (hhi : i < hi)
    (hlen : i < bitLen b) (hclear : bitGet b i = false) :
    clearCount (bitSet b i) lo hi + 1 = clearCount b lo hi := by
  have hmem : i ∈ List.range' lo (hi - lo) := by
    rw [List.mem_range'_1]
    omega
  refine (countP_eq_add_one List.nodup_range' hmem ?_ ?_ fun j hj ↦ ?_).symm
  · simp [bitGet_bitSet hlen]
  · rw [hclear]
    rfl
  · simp [bitGet_bitSet hlen, hj]

/-- The count looks at the bits of its range only. -/
theorem clearCount_congr {b b' : List (BitVec w)} {lo hi : ℕ}
    (h : ∀ j, lo ≤ j → j < hi → bitGet b j = bitGet b' j) :
    clearCount b lo hi = clearCount b' lo hi := by
  apply List.countP_congr
  intro j hj
  rw [List.mem_range'_1] at hj
  rw [h j hj.1 (by omega)]

/-- Clearing a set bit of the range leaves one clear bit more in it. -/
theorem clearCount_bitClr {b : List (BitVec w)} {lo hi i : ℕ} (hlo : lo ≤ i) (hhi : i < hi)
    (hlen : i < bitLen b) (hset : bitGet b i = true) :
    clearCount (bitClr b i) lo hi = clearCount b lo hi + 1 := by
  have hlen' : i < bitLen (bitClr b i) := by rwa [bitLen, length_bitClr]
  have hback : clearCount (bitSet (bitClr b i) i) lo hi = clearCount b lo hi := by
    apply clearCount_congr
    intro j _ _
    rw [bitGet_bitSet hlen', bitGet_bitClr hlen]
    by_cases hj : j = i
    · simp [hj, hset]
    · simp [hj]
  rw [← hback]
  refine (clearCount_bitSet hlo hhi hlen' ?_).symm
  rw [bitGet_bitClr hlen]
  simp

theorem clearCount_le (b : List (BitVec w)) (lo hi : ℕ) : clearCount b lo hi ≤ hi - lo :=
  List.countP_le_length.trans_eq List.length_range'

/-- A search without success has seen set bits only. -/
theorem bitGet_of_firstClear_eq_none {b : List (BitVec w)} {lo hi i : ℕ}
    (h : firstClear b lo hi = none) (hlo : lo ≤ i) (hhi : i < hi) : bitGet b i = true := by
  have hseen := List.find?_eq_none.mp h i (List.mem_range'_1.mpr ⟨hlo, by omega⟩)
  simpa using hseen

/-- The bits below the one that is found are set. -/
theorem bitGet_of_lt_firstClear {b : List (BitVec w)} {lo hi i j : ℕ}
    (h : firstClear b lo hi = some i) (hlo : lo ≤ j) (hlt : j < i) : bitGet b j = true := by
  obtain ⟨-, hhi, -⟩ := firstClear_eq_some h
  obtain ⟨-, k, hk, hfound, hseen⟩ := List.find?_eq_some_iff_getElem.mp h
  rw [List.getElem_range'] at hfound
  have hj := hseen (j - lo) (by omega)
  rw [List.getElem_range', Nat.one_mul, Nat.add_sub_cancel' hlo] at hj
  simpa using hj

end NoOsKernel.Lib
