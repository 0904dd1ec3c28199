import Mathlib
import NoOsKernel.Kern.Format

/-!
# What a formatter leaves in its buffer

Every part of a formatter appends a text to the buffer and cuts it off where the buffer ends
(`Output`); texts that are appended one after another are appended as one (`Output.trans`). The
texts are the ones of the conversions: digits, signed digits, strings.
-/

set_option autoImplicit false
set_option relaxedAutoImplicit false

namespace NoOsKernel.Kern

open Lib

/-! ### Strings in memory -/

/-- The bytes `bs`, none of which is NUL, stand at an address with a NUL behind them. -/
def StringAt {A : Type} [Add A] [One A] (mem : A → Byte) : A → List Byte → Prop
  | addr, [] => mem addr = 0
  | addr, c :: bs => c ≠ 0 ∧ mem addr = c ∧ StringAt mem (addr + 1) bs

/-- The memory that holds a text at its start and NULs behind it. -/
def memOf (bs : List Byte) (k : ℕ) : Byte := bs.getD k 0

theorem stringAt_memOf (pre : List Byte) {bs : List Byte} (hne : ∀ c ∈ bs, c ≠ 0) :
    StringAt (memOf (pre ++ bs)) pre.length bs := by
  induction bs generalizing pre with
  | nil =>
    change (pre ++ []).getD pre.length 0 = 0
    rw [List.append_nil, List.getD_eq_default _ _ le_rfl]
  | cons c bs ih =>
    obtain ⟨hc, hrest⟩ := List.forall_mem_cons.mp hne
    refine ⟨hc, ?_, ?_⟩
    · rw [memOf, List.getD_append_right _ _ _ _ le_rfl, Nat.sub_self]
      rfl
    · have htail := ih (pre ++ [c]) hrest
      rwa [List.append_assoc, List.length_append] at htail

/-- At most `k` bytes of the string at an address. -/
def readStr (mem : BitVec 64 → Byte) : ℕ → BitVec 64 → List Byte
  | 0, _ => []
  | k + 1, str => if mem str = 0 then [] else mem str :: readStr mem k (str + 1)

theorem readStr_eq_take {mem : BitVec 64 → Byte} {str : BitVec 64} {bs : List Byte}
    (h : StringAt mem str bs) (k : ℕ) : readStr mem k str = bs.take k := by
  induction k generalizing str bs with
  | zero => exact List.take_zero.symm
  | succ k ih =>
    cases bs with
    | nil => exact if_pos h
    | cons c bs =>
      obtain ⟨hc, rfl, hrest⟩ := h
      rw [readStr, if_neg hc, ih hrest, List.take_succ_cons]

theorem readStr_take (mem : BitVec 64 → Byte) (str : BitVec 64) {k m : ℕ} (hk : k ≤ m) :
    readStr mem k str = (readStr mem m str).take k := by
  induction k generalizing m str with
  | zero => exact List.take_zero.symm
  | succ k ih =>
    obtain ⟨m, rfl⟩ : ∃ m', m = m' + 1 := ⟨m - 1, by omega⟩
    simp only [readStr]
    split_ifs
    · rfl
    · rw [ih _ (Nat.le_of_succ_le_succ hk), List.take_succ_cons]

/-! ### The buffer -/

namespace Formatter

/-- What has been written in front of the position. -/
def text (s : Formatter) : List Byte := (List.range s.w).map s.out

@[simp] theorem length_text (s : Formatter) : s.text.length = s.w := by
  rw [text, List.length_map, List.length_range]

theorem text_put (s : Formatter) (v : Byte) : (s.put v).text = s.text ++ [v] := by
  simp only [text, put, List.range_succ, List.map_append, List.map_cons, List.map_nil,
    Function.update_self]
  congr 1
  refine List.map_congr_left fun k hk ↦ Function.update_of_ne ?_ _ _
  have hlt := List.mem_range.mp hk
  omega

theorem text_terminate (s : Formatter) : s.terminate.text = s.text := by
  refine List.map_congr_left fun k hk ↦ Function.update_of_ne ?_ _ _
  have hlt := List.mem_range.mp hk
  simp only [terminate] at hlt
  omega

end Formatter

variable {cap : ℕ} {s s₁ s' s'' : Formatter} {t t' : List Byte}

/-- A formatter has appended the text `t`, cut off at the last byte but one of a buffer of `cap`
bytes, and written nothing outside of the buffer. -/
structure Output (cap : ℕ) (s s' : Formatter) (t : List Byte) : Prop where
  text : s'.text = s.text ++ t.take (cap - 1 - s.w)
  written : ∀ i ∈ s'.written, i ∈ s.written ∨ i < cap
  outside : ∀ k, cap ≤ k → s'.out k = s.out k

/-- The same position in the format and in the arguments. -/
structure SameInput (s s' : Formatter) : Prop where
  p : s'.p = s.p
  a : s'.a = s.a
  fmtRead : s'.fmtRead = s.fmtRead
  argRead : s'.argRead = s.argRead

theorem SameInput.refl (s : Formatter) : SameInput s s := ⟨rfl, rfl, rfl, rfl⟩

theorem SameInput.trans (h : SameInput s s') (h' : SameInput s' s'') : SameInput s s'' :=
  ⟨h'.p.trans h.p, h'.a.trans h.a, h'.fmtRead.trans h.fmtRead, h'.argRead.trans h.argRead⟩

theorem Output.w_eq (h : Output cap s s' t) : s'.w = s.w + min (cap - 1 - s.w) t.length := by
  have hlength := congrArg List.length h.text
  rwa [List.length_append, s'.length_text, s.length_text, List.length_take] at hlength

/-- The position stays inside the buffer. -/
theorem Output.w_lt (h : Output cap s s' t) (hw : s.w < cap) : s'.w < cap := by
  have hw' := h.w_eq
  omega

theorem Output.refl (cap : ℕ) (s : Formatter) : Output cap s s [] :=
  ⟨by rw [List.take_nil, List.append_nil], fun _ hi ↦ Or.inl hi, fun _ _ ↦ rfl⟩

theorem Output.trans (h : Output cap s s' t) (h' : Output cap s' s'' t') :
    Output cap s s'' (t ++ t') := by
  refine ⟨?_, fun i hi ↦ ?_, fun k hk ↦ (h'.outside k hk).trans (h.outside k hk)⟩
  · have hroom : cap - 1 - s'.w = cap - 1 - s.w - t.length := by
      have hw := h.w_eq
      omega
    rw [h'.text, h.text, List.take_append, hroom, List.append_assoc]
  · rcases h'.written i hi with hi | hi
    · exact h.written i hi
    · exact Or.inr hi

/-- Output from a formatter that differs in its input only. -/
theorem Output.of_same (hout : s₁.out = s.out) (hw : s₁.w = s.w)
    (hwritten : s₁.written = s.written) (h : Output cap s₁ s' t) : Output cap s s' t := by
  have htext : s₁.text = s.text := by
    unfold Formatter.text
    rw [hout, hw]
  exact ⟨by rw [h.text, htext, hw], hwritten ▸ h.written, hout ▸ h.outside⟩

/-- Where there is no room left any text is as good as none. -/
theorem Output.of_full (h : Output cap s s' []) (hw : ¬ s.w + 1 < cap) (t : List Byte) :
    Output cap s s' t := by
  have hroom : cap - 1 - s.w = 0 := by omega
  refine ⟨?_, h.written, h.outside⟩
  rw [h.text, hroom, List.take_zero, List.take_zero]

theorem Output.put (hw : s.w + 1 < cap) (v : Byte) : Output cap s (s.put v) [v] := by
  refine ⟨?_, fun i hi ↦ ?_, fun k hk ↦ Function.update_of_ne (by omega) _ _⟩
  · rw [s.text_put, List.take_of_length_le (by simp only [List.length_singleton]; omega)]
  · rcases List.mem_cons.mp hi with rfl | hi
    · exact Or.inr (by omega)
    · exact Or.inl hi

theorem Output.terminate (hw : s.w < cap) : Output cap s s.terminate [] := by
  refine ⟨?_, fun i hi ↦ ?_, fun k hk ↦ Function.update_of_ne (by omega) _ _⟩
  · rw [s.text_terminate, List.take_nil, List.append_nil]
  · rcases List.mem_cons.mp hi with rfl | hi
    · exact Or.inr hw
    · exact Or.inl hi

/-- A part of a formatter that appends the text `t` and leaves the input alone. -/
def Emits (cap : ℕ) (s s' : Formatter) (t : List Byte) : Prop := Output cap s s' t ∧ SameInput s s'

theorem Emits.trans (h : Emits cap s s' t) (h' : Emits cap s' s'' t') : Emits cap s s'' (t ++ t') :=
  ⟨h.1.trans h'.1, h.2.trans h'.2⟩

theorem Emits.put (hw : s.w + 1 < cap) (v : Byte) : Emits cap s (s.put v) [v] :=
  ⟨.put hw v, ⟨rfl, rfl, rfl, rfl⟩⟩

theorem Emits.full (hw : ¬ s.w + 1 < cap) (t : List Byte) : Emits cap s s t :=
  ⟨(Output.refl cap s).of_full hw t, .refl s⟩

/-! ### Loops that write -/

variable {more : ℕ → Bool}

/-- A byte that is written where there is room. -/
theorem Emits.put_if (hmore : more s.w = true ↔ s.w + 1 < cap) (v : Byte) :
    Emits cap s (if more s.w then s.put v else s) [v] := by
  split_ifs with hroom
  · exact .put (hmore.mp hroom) v
  · exact .full (fun h ↦ hroom (hmore.mpr h)) [v]

theorem putDigits_emits (tmp : List Byte) (s : Formatter)
    (hmore : ∀ w, s.w ≤ w → (more w = true ↔ w + 1 < cap)) :
    Emits cap s (putDigits more tmp s) tmp := by
  induction tmp generalizing s with
  | nil => exact ⟨.refl cap s, .refl s⟩
  | cons d tmp ih =>
    rw [putDigits]
    split_ifs with hroom
    · exact (Emits.put ((hmore s.w le_rfl).mp hroom) d).trans
        (ih (s.put d) fun w hw ↦ hmore w (Nat.le_of_succ_le hw))
    · exact .full (fun h ↦ hroom ((hmore s.w le_rfl).mpr h)) _

theorem putText_emits (hmore : ∀ w, more w = true ↔ w + 1 < cap) (t : List Byte) (s : Formatter) :
    Emits cap s (putText more t s) t := by
  induction t generalizing s with
  | nil => exact ⟨.refl cap s, .refl s⟩
  | cons c t ih =>
    rw [putText]
    split_ifs with hroom
    · exact (Emits.put ((hmore s.w).mp hroom) c).trans (ih (s.put c))
    · exact .full (fun h ↦ hroom ((hmore s.w).mpr h)) _

/-- A string is copied as far as it goes and there is room. -/
theorem putStr_emits {mem : BitVec 64 → Byte} (hmore : ∀ w, more w = true ↔ w + 1 < cap) {fuel : ℕ}
    {str : BitVec 64} (h : putStr mem more fuel str s = some s') :
    Emits cap s s' (readStr mem (cap - 1 - s.w) str) := by
  induction fuel generalizing str s with
  | zero => cases h
  | succ fuel ih =>
    rw [putStr] at h
    split_ifs at h with hgo
    · obtain ⟨hnul, hroom⟩ := hgo
      have hw := (hmore s.w).mp hroom
      have hrest := (Emits.put hw (mem str)).trans (ih h)
      obtain ⟨k, hk⟩ : ∃ k, cap - 1 - s.w = k + 1 := ⟨cap - 1 - s.w - 1, by omega⟩
      have hput : (s.put (mem str)).w = s.w + 1 := rfl
      rw [hput, show cap - 1 - (s.w + 1) = k by omega] at hrest
      rw [hk, readStr, if_neg hnul]
      exact hrest
    · obtain rfl := Option.some.inj h
      by_cases hw : s.w + 1 < cap
      · have hnul : mem str = 0 := by
          by_contra hnul
          exact hgo ⟨hnul, (hmore s.w).mpr hw⟩
        obtain ⟨k, hk⟩ : ∃ k, cap - 1 - s.w = k + 1 := ⟨cap - 1 - s.w - 1, by omega⟩
        rw [hk, readStr, if_pos hnul]
        exact ⟨.refl cap s, .refl s⟩
      · exact .full hw _

/-- The copy ends when the buffer is full at the latest. -/
theorem putStr_isSome (mem : BitVec 64 → Byte) (hmore : ∀ w, more w = true ↔ w + 1 < cap)
    {fuel : ℕ} (str : BitVec 64) (s : Formatter) (hfuel : cap - 1 - s.w < fuel) :
    ∃ s', putStr mem more fuel str s = some s' := by
  induction fuel generalizing str s with
  | zero => exact absurd hfuel (Nat.not_lt_zero _)
  | succ fuel ih =>
    rw [putStr]
    split_ifs with hgo
    · have hw := (hmore s.w).mp hgo.2
      refine ih (str + 1) (s.put (mem str)) ?_
      change cap - 1 - (s.w + 1) < fuel
      omega
    · exact ⟨s, rfl⟩

/-! ### Numbers -/

/-- The digits of a number, most significant first. -/
def digitText (base : ℕ) (upper : Bool) (v : ℕ) : List Byte :=
  (Nat.toDigits base v).map fun c ↦ chr (if upper then c.toUpper else c)

/-- A signed decimal number. -/
def signedText (v : ℤ) : List Byte :=
  if v < 0 then chr '-' :: digitText 10 false v.natAbs else digitText 10 false v.natAbs

theorem digit_eq (upper : Bool) {d : ℕ} (hd : d < 16) :
    digit upper d = chr (if upper then (Nat.digitChar d).toUpper else Nat.digitChar d) := by
  cases upper <;> interval_cases d <;> rfl

theorem pushDigits_eq (upper : Bool) {base : ℕ} (hone : 1 < base) (hbase : base ≤ 16)
    {room v : ℕ} (hv : v < base ^ room) (hpos : 0 < v) (tmp : List Byte) :
    pushDigits base upper room v tmp = digitText base upper v ++ tmp := by
  induction room generalizing v tmp with
  | zero =>
    rw [pow_zero] at hv
    omega
  | succ room ih =>
    have hdigit : digit upper (v % base) = chr
        (if upper then (Nat.digitChar (v % base)).toUpper else Nat.digitChar (v % base)) :=
      digit_eq upper ((Nat.mod_lt v (by omega)).trans_le hbase)
    rw [pushDigits, if_neg (by omega)]
    by_cases hlt : v < base
    · have hstop : pushDigits base upper room (v / base) (digit upper (v % base) :: tmp) =
          digit upper (v % base) :: tmp := by
        rw [Nat.div_eq_of_lt hlt]
        cases room
        · rfl
        · exact if_pos rfl
      rw [hstop, hdigit, Nat.mod_eq_of_lt hlt, digitText, Nat.toDigits_of_lt_base hlt]
      rfl
    · have hle := Nat.le_of_not_lt hlt
      have hrest : v / base < base ^ room := by
        rw [Nat.div_lt_iff_lt_mul (by omega), ← pow_succ]
        exact hv
      rw [ih hrest (Nat.div_pos hle (by omega)), hdigit, digitText, digitText,
        Nat.toDigits_of_base_le hone hle, List.map_append, List.append_assoc]
      rfl

/-- The digits in `tmp`, where it has room for all of them. -/
theorem digits_eq (upper : Bool) {base : ℕ} (hone : 1 < base) (hbase : base ≤ 16) {room v : ℕ}
    (hv : v < base ^ room) : digits base upper room v = digitText base upper v := by
  unfold digits
  split_ifs with hzero
  · rw [hzero, digitText, Nat.toDigits_zero]
    cases upper <;> rfl
  · rw [pushDigits_eq upper hone hbase hv (Nat.pos_of_ne_zero hzero), List.append_nil]

theorem putUnsigned_emits (hmore : ∀ w, more w = true ↔ w + 1 < cap) (v : BitVec 64)
    (s : Formatter) : Emits cap s (putUnsigned more v s) (digitText 10 false v.toNat) := by
  have hv : v.toNat < 10 ^ 24 := v.isLt.trans (by norm_num)
  rw [putUnsigned, digits_eq false (by norm_num) (by norm_num) hv]
  exact putDigits_emits _ s fun w _ ↦ hmore w

/-- The magnitude of a signed word, also of the least one. -/
theorem toNat_magnitude (v : BitVec 64) :
    (if v.slt 0 then -v else v).toNat = v.toInt.natAbs ∧ (v.slt 0 = true ↔ v.toInt < 0) := by
  have hlt : v.slt 0 = true ↔ v.toInt < 0 := by
    rw [BitVec.slt_iff_toInt_lt]
    rfl
  refine ⟨?_, hlt⟩
  have hv := v.isLt
  have hint := BitVec.toInt_eq_toNat_cond v
  split_ifs at hint ⊢ with hneg hsmall hsmall
  · rw [hlt] at hneg
    omega
  · rw [BitVec.toNat_neg]
    omega
  · omega
  · rw [hlt] at hneg
    omega

theorem putSigned_emits (hmore : ∀ w, more w = true ↔ w + 1 < cap) (v : BitVec 64)
    (s : Formatter) : Emits cap s (putSigned more v s) (signedText v.toInt) := by
  obtain ⟨hmagnitude, hneg⟩ := toNat_magnitude v
  have hv : (if v.slt 0 then -v else v).toNat < 10 ^ 24 :=
    (BitVec.isLt _).trans (by norm_num)
  simp only [putSigned, signedText]
  rw [digits_eq false (by norm_num) (by norm_num) hv, hmagnitude]
  by_cases hsign : v.toInt < 0
  · have hif := Emits.put_if (hmore s.w) (chr '-')
    simp only [hneg.mpr hsign, true_and, if_pos hsign]
    exact hif.trans (putDigits_emits _ _ fun w _ ↦ hmore w)
  · simp only [Bool.eq_false_iff.mpr fun h ↦ hsign (hneg.mp h), Bool.false_eq_true, false_and,
      if_false, if_neg hsign]
    exact putDigits_emits _ _ fun w _ ↦ hmore w

/-- `aformat` fills the rest of the buffer. -/
theorem aformat_emits (hw : s.w < cap) (v : BitVec 64) (upper : Bool) :
    Emits cap s (aformat s (cap - s.w) 16 v.toNat upper) (digitText 16 upper v.toNat) := by
  have hv : v.toNat < 16 ^ 65 := v.isLt.trans (by norm_num)
  simp only [aformat]
  rw [if_neg (by omega : ¬ (16 < 2 ∨ 36 < 16)), if_pos (by omega : 0 < cap - s.w),
    digits_eq upper (by norm_num) (by norm_num) hv]
  have hdigits : Emits cap s (putDigits (fun w ↦ decide (w - s.w + 1 < cap - s.w))
      (digitText 16 upper v.toNat) s) (digitText 16 upper v.toNat) := by
    refine putDigits_emits _ s fun w hle ↦ ?_
    rw [decide_eq_true_eq]
    omega
  have hnul : Emits cap _ _ [] := ⟨.terminate (hdigits.1.w_lt hw), ⟨rfl, rfl, rfl, rfl⟩⟩
  have hend := hdigits.trans hnul
  rwa [List.append_nil] at hend

end NoOsKernel.Kern
