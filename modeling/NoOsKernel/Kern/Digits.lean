import Mathlib.Data.Nat.Digits.Lemmas
import NoOsKernel.Kern.FormatLaws

/-!
# Numerals

`aformat` takes every base up to 36 but has a table of 16 digits. What it writes is the numeral of its
number exactly if the number has no digit from 16 on.
-/

set_option autoImplicit false
set_option relaxedAutoImplicit false

namespace NoOsKernel.Kern

open Lib

/-! ### Numerals -/

/-- The value of a digit character. -/
def charValue (c : Byte) : Option ℕ :=
  if 48 ≤ c.toNat ∧ c.toNat < 58 then some (c.toNat - 48)
  else if 97 ≤ c.toNat ∧ c.toNat < 123 then some (c.toNat - 97 + 10)
  else if 65 ≤ c.toNat ∧ c.toNat < 91 then some (c.toNat - 65 + 10)
  else none

/-- The digits of a number, most significant first and without leading zeros. -/
structure Numeral (base v : ℕ) (ds : List ℕ) : Prop where
  lt_base : ∀ d ∈ ds, d < base
  value : Nat.ofDigits base ds.reverse = v
  ne_nil : ds ≠ []
  no_leading_zero : ds.head? = some 0 → ds = [0]

/-- `aformat`, called with `n` bytes at `out`, writes the numeral of `v` and stays inside its table and
its buffer. -/
structure Renders (base v n : ℕ) (upper : Bool) (out : ℕ → Byte) : Prop where
  digits : ∃ ds, (aformat (.start out) n base v upper).text.map charValue = ds.map some ∧
    Numeral base v ds
  table : ∀ d ∈ tableReads base 65 v, d < (digitTable upper).length
  buffer : ∀ k ∈ (aformat (.start out) n base v upper).written, k < n

/-- The numeral a number has. -/
def numeral (base v : ℕ) : List ℕ := if v = 0 then [0] else (Nat.digits base v).reverse

theorem numeral_spec {base : ℕ} (hbase : 2 ≤ base) (v : ℕ) : Numeral base v (numeral base v) := by
  unfold numeral
  split_ifs with hv
  · subst hv
    exact ⟨fun d hd ↦ by rw [List.mem_singleton] at hd; omega, Nat.ofDigits_singleton,
      List.cons_ne_nil 0 [], fun _ ↦ rfl⟩
  · have hne : Nat.digits base v ≠ [] := Nat.digits_ne_nil_iff_ne_zero.mpr hv
    refine ⟨fun d hd ↦ ?_, ?_, ?_, fun hhead ↦ ?_⟩
    · exact Nat.digits_lt_base (by omega) (List.mem_reverse.mp hd)
    · rw [List.reverse_reverse, Nat.ofDigits_digits]
    · rwa [Ne, List.reverse_eq_nil_iff]
    · rw [List.head?_reverse, List.getLast?_eq_some_getLast hne] at hhead
      exact absurd (Option.some.inj hhead) (Nat.getLast_digit_ne_zero base hv)

/-! ### The loop over the digits -/

theorem tableReads_eq {base : ℕ} (hbase : 2 ≤ base) {room v : ℕ} (hv : v < base ^ room) :
    tableReads base room v = Nat.digits base v := by
  induction room generalizing v with
  | zero =>
    rw [pow_zero, Nat.lt_one_iff] at hv
    rw [hv, Nat.digits_zero]
    rfl
  | succ room ih =>
    rw [tableReads]
    split_ifs with hzero
    · rw [hzero, Nat.digits_zero]
    · have hrest : v / base < base ^ room := by
        rw [Nat.div_lt_iff_lt_mul (by omega), ← pow_succ]
        exact hv
      rw [ih hrest, ← Nat.digits_def' (by omega) (Nat.pos_of_ne_zero hzero)]

/-- What is pushed are the table entries that are read. -/
theorem pushDigits_eq_map (base : ℕ) (upper : Bool) (room v : ℕ) (tmp : List Byte) :
    pushDigits base upper room v tmp =
      (tableReads base room v).reverse.map (digit upper) ++ tmp := by
  induction room generalizing v tmp with
  | zero => rfl
  | succ room ih =>
    rw [pushDigits, tableReads]
    split_ifs
    · rfl
    · rw [ih, List.reverse_cons, List.map_append, List.append_assoc]
      rfl

theorem digits_eq_map {base : ℕ} (hbase : 2 ≤ base) (upper : Bool) {room v : ℕ}
    (hv : v < base ^ room) : digits base upper room v = (numeral base v).map (digit upper) := by
  rw [digits, numeral]
  split_ifs
  · cases upper <;> rfl
  · rw [pushDigits_eq_map, tableReads_eq hbase hv, List.append_nil]

theorem charValue_digit (upper : Bool) {d : ℕ} (hd : d < 16) : charValue (digit upper d) = some d := by
  revert d
  cases upper <;> decide

theorem length_digitTable (upper : Bool) : (digitTable upper).length = 16 := by
  cases upper <;> rfl

/-! ### `aformat` -/

variable {base : ℕ} (hlow : 2 ≤ base) (hhigh : base ≤ 36)
include hlow hhigh

theorem aformat_text (v : BitVec 64) (upper : Bool) (out : ℕ → Byte) {n : ℕ}
    (hn : (numeral base v.toNat).length < n) :
    (aformat (.start out) n base v.toNat upper).text =
        (numeral base v.toNat).map (digit upper) ∧
      ∀ k ∈ (aformat (.start out) n base v.toNat upper).written, k < n := by
  have hv : v.toNat < base ^ 65 :=
    v.isLt.trans ((by norm_num : 2 ^ 64 < 2 ^ 65).trans_le (Nat.pow_le_pow_left hlow 65))
  have hdigits : Emits n (.start out) (putDigits (fun w ↦ decide (w - 0 + 1 < n))
      ((numeral base v.toNat).map (digit upper)) (.start out))
        ((numeral base v.toNat).map (digit upper)) := by
    refine putDigits_emits _ _ fun w _ ↦ ?_
    rw [decide_eq_true_eq, Nat.sub_zero]
  have hnul := hdigits.1.trans (.terminate (hdigits.1.w_lt (Nat.zero_lt_of_lt hn)))
  rw [List.append_nil] at hnul
  have hbase : ¬ (base < 2 ∨ 36 < base) := by omega
  have hpos : 0 < n := by omega
  simp only [aformat, if_neg hbase, if_pos hpos, digits_eq_map hlow upper hv]
  refine ⟨?_, fun k hk ↦ (hnul.written k hk).resolve_left List.not_mem_nil⟩
  refine hnul.text.trans ?_
  rw [List.take_of_length_le]
  · rfl
  · rw [List.length_map]
    change _ ≤ n - 1 - 0
    omega

/-- A number is rendered exactly if it has no digit from 16 on. -/
theorem renders_iff (v : BitVec 64) (upper : Bool) (out : ℕ → Byte) {n : ℕ}
    (hn : (numeral base v.toNat).length < n) :
    Renders base v.toNat n upper out ↔ ∀ d ∈ Nat.digits base v.toNat, d < 16 := by
  have hv : v.toNat < base ^ 65 :=
    v.isLt.trans ((by norm_num : 2 ^ 64 < 2 ^ 65).trans_le (Nat.pow_le_pow_left hlow 65))
  obtain ⟨htext, hbuffer⟩ := aformat_text hlow hhigh v upper out hn
  constructor
  · intro h d hd
    rw [← tableReads_eq hlow hv] at hd
    exact (length_digitTable upper) ▸ h.table d hd
  · intro h
    refine ⟨⟨numeral base v.toNat, ?_, numeral_spec hlow _⟩, fun d hd ↦ ?_, hbuffer⟩
    · rw [htext, List.map_map]
      refine List.map_congr_left fun d hd ↦ charValue_digit upper ?_
      unfold numeral at hd
      split_ifs at hd
      · rw [List.mem_singleton] at hd
        omega
      · exact h d (List.mem_reverse.mp hd)
    · rw [tableReads_eq hlow hv] at hd
      exact (length_digitTable upper).symm ▸ h d hd

omit hlow hhigh

/-- A byte in base 16. -/
theorem renders_iff_hex : Renders 16 0xFF 3 false fun _ ↦ 0 :=
  have hbase : 2 ≤ 16 ∧ 16 ≤ 36 := by decide
  (renders_iff hbase.1 hbase.2 0xFF#64 false (fun _ ↦ 0) (n := 3) (by decide)).mpr (by decide)

/-- In base 17 the number 16 has a digit of its own, and the table does not. -/
theorem not_renders_base_seventeen : ¬ ∀ (base : ℕ) (v : BitVec 64) (n : ℕ) (upper : Bool)
    (out : ℕ → Byte), 2 ≤ base → base ≤ 36 → (numeral base v.toNat).length < n →
      Renders base v.toNat n upper out := by
  intro h
  have htable := (h 17 16#64 2 false (fun _ ↦ 0) (by decide) (by decide) (by decide)).table
  exact absurd (htable 16 (by decide)) (by decide)

end NoOsKernel.Kern
