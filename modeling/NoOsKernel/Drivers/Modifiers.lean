import NoOsKernel.Drivers.Kbd
import NoOsKernel.Lib.Latch

/-!
# Modifiers after a stream of scancodes

A stream of whole scancodes sets and clears the flags of the decoder. The flag of the control keys
follows its make and break codes, with the prefix and without it. The flag of the shift keys is set
by a make code with the prefix, but only a break code without the prefix clears it.
-/

set_option autoImplicit false
set_option relaxedAutoImplicit false

namespace NoOsKernel.Drivers

open Lib

/-- A scancode of set 1, behind the prefix or not. -/
structure Scancode where
  prefixed : Bool
  code : Byte
  plain : prefixed = false → code ≠ 0xE0

namespace Scancode

/-- The bytes the controller sends. -/
def bytes (c : Scancode) : List Byte := if c.prefixed then [0xE0, c.code] else [c.code]

/-- The make code of a modifier: left shift, right shift, control. -/
def IsModifierMake (c : Scancode) : Prop := c.code = 0x2A ∨ c.code = 0x36 ∨ c.code = 0x1D

/-- The make code of any key. -/
def IsMake (c : Scancode) : Prop := c.code < 0x80

/-- `d` is the break code for the make code `c`, with the same prefix. -/
def ReleasedBy (c d : Scancode) : Prop := d.prefixed = c.prefixed ∧ d.code = c.code ||| 0x80

/-- The make code of a shift key, behind the prefix. -/
def IsPrefixedShift (c : Scancode) : Prop := c.prefixed = true ∧ (c.code = 0x2A ∨ c.code = 0x36)

/-- The break code of a shift key, without the prefix. -/
def IsPlainShiftBreak (c : Scancode) : Prop := c.prefixed = false ∧ (c.code = 0xAA ∨ c.code = 0xB6)

instance : DecidablePred IsMake := fun _ ↦ inferInstanceAs (Decidable (_ < _))

instance : DecidablePred IsModifierMake := fun _ ↦ inferInstanceAs (Decidable (_ ∨ _))

instance : DecidableRel ReleasedBy := fun _ _ ↦ inferInstanceAs (Decidable (_ ∧ _))

instance : DecidablePred IsPrefixedShift := fun _ ↦ inferInstanceAs (Decidable (_ ∧ _))

instance : DecidablePred IsPlainShiftBreak := fun _ ↦ inferInstanceAs (Decidable (_ ∧ _))

/-- What a code does to the flag of the shift keys. -/
def shiftEffect (c : Scancode) : Option Bool :=
  if c.code = 0x2A ∨ c.code = 0x36 then some true
  else if c.prefixed = false ∧ (c.code = 0xAA ∨ c.code = 0xB6) then some false
  else none

/-- What a code does to the flag of the control keys. -/
def ctrlEffect (c : Scancode) : Option Bool :=
  if c.code = 0x1D then some true else if c.code = 0x9D then some false else none

theorem shiftEffect_eq_true {c : Scancode} :
    c.shiftEffect = some true ↔ c.code = 0x2A ∨ c.code = 0x36 := by
  rw [shiftEffect]
  split_ifs with hmake
  · exact iff_of_true rfl hmake
  · exact iff_of_false nofun hmake
  · exact iff_of_false nofun hmake

theorem shiftEffect_eq_false {c : Scancode} :
    c.shiftEffect = some false ↔ c.IsPlainShiftBreak := by
  rw [shiftEffect, IsPlainShiftBreak]
  split_ifs with hmake hbreak
  · refine iff_of_false nofun ?_
    rintro ⟨-, hcode⟩
    rcases hmake with heq | heq <;> rw [heq] at hcode <;> revert hcode <;> decide
  · exact iff_of_true rfl hbreak
  · exact iff_of_false nofun hbreak

theorem ctrlEffect_eq_true {c : Scancode} : c.ctrlEffect = some true ↔ c.code = 0x1D := by
  rw [ctrlEffect]
  split_ifs with hmake
  · exact iff_of_true rfl hmake
  · exact iff_of_false nofun hmake
  · exact iff_of_false nofun hmake

theorem ctrlEffect_eq_false {c : Scancode} : c.ctrlEffect = some false ↔ c.code = 0x9D := by
  rw [ctrlEffect]
  split_ifs with hmake hbreak
  · rw [hmake]
    decide
  · exact iff_of_true rfl hbreak
  · exact iff_of_false nofun hbreak

end Scancode

/-! ### The decoder -/

/-- The interrupts of some bytes, one after the other. -/
def decode (k : Kbd) (bytes : List Byte) : Kbd := bytes.foldl (fun k sc ↦ (kbdHandler k sc).1) k

/-- The interrupts of a stream of scancodes. -/
def decodeStream (k : Kbd) (cs : List Scancode) : Kbd := decode k (cs.flatMap Scancode.bytes)

/-- No flag of a modifier or of the prefix is set. -/
structure Clear (k : Kbd) : Prop where
  shift : k.shift = false
  ctrl : k.ctrl = false
  ext : k.ext = false

theorem push_flags (k : Kbd) (c : Byte) :
    (k.push c).shift = k.shift ∧ (k.push c).ctrl = k.ctrl ∧ (k.push c).ext = k.ext :=
  ⟨rfl, rfl, rfl⟩

/-- The flags after a code behind the prefix. -/
theorem kbdExtended_flags (k : Kbd) (sc : Byte) :
    (kbdExtended k sc).shift = (if sc = 0x2A ∨ sc = 0x36 then true else k.shift) ∧
      (kbdExtended k sc).ctrl = (if sc = 0x1D then true else if sc = 0x9D then false else k.ctrl) ∧
      (kbdExtended k sc).ext = k.ext := by
  rw [kbdExtended]
  by_cases hctrl : sc = 0x1D
  · simp [hctrl]
  by_cases hctrl' : sc = 0x9D
  · simp [hctrl']
  by_cases hleft : sc = 0x2A
  · simp [hleft]
  by_cases hright : sc = 0x36
  · simp [hright]
  · simp only [hctrl, hctrl', hleft, hright, or_self, if_false]
    rcases extendedKeys.lookup sc with - | c
    · exact ⟨rfl, rfl, rfl⟩
    · exact push_flags k c

/-- The flags after a code without the prefix. -/
theorem kbdHandler_flags {k : Kbd} (hext : k.ext = false) {sc : Byte} (hsc : sc ≠ 0xE0) :
    (kbdHandler k sc).1.shift = (if sc = 0x2A ∨ sc = 0x36 then true
        else if sc = 0xAA ∨ sc = 0xB6 then false else k.shift) ∧
      (kbdHandler k sc).1.ctrl =
        (if sc = 0x1D then true else if sc = 0x9D then false else k.ctrl) ∧
      (kbdHandler k sc).1.ext = false := by
  rw [kbdHandler, hext, if_neg Bool.false_ne_true, if_neg hsc]
  by_cases hshift : sc = 0x2A ∨ sc = 0x36
  · rcases hshift with rfl | rfl <;> simp
  by_cases hrelease : sc = 0xAA ∨ sc = 0xB6
  · rcases hrelease with rfl | rfl <;> simp
  by_cases hctrl : sc = 0x1D
  · simp [hctrl]
  by_cases hctrl' : sc = 0x9D
  · simp [hctrl']
  simp only [if_neg hshift, if_neg hrelease, if_neg hctrl, if_neg hctrl']
  split_ifs
  · exact ⟨rfl, rfl, rfl⟩
  · exact ⟨rfl, rfl, hext⟩
  · exact ⟨rfl, rfl, hext⟩
  · exact ⟨rfl, rfl, hext⟩

/-- A whole scancode has its effect on the flags, and the prefix is used up. -/
theorem decode_bytes {k : Kbd} (hext : k.ext = false) (c : Scancode) :
    (decode k c.bytes).shift = c.shiftEffect.getD k.shift ∧
      (decode k c.bytes).ctrl = c.ctrlEffect.getD k.ctrl ∧ (decode k c.bytes).ext = false := by
  obtain ⟨isPrefixed, code, hplain⟩ := c
  cases isPrefixed with
  | true =>
    have hprefix : kbdHandler k 0xE0 = ({ k with ext := true }, false) := by
      rw [kbdHandler, hext]
      rfl
    have hdecode : decode k [0xE0, code] = kbdExtended { k with ext := false } code := by
      rw [decode, List.foldl_cons, hprefix]
      rfl
    obtain ⟨hshift, hctrl, hext'⟩ := kbdExtended_flags { k with ext := false } code
    simp only [Scancode.bytes, if_true, hdecode, hshift, hctrl, hext', Scancode.shiftEffect,
      Scancode.ctrlEffect, Bool.true_eq_false, false_and, if_false]
    refine ⟨?_, ?_, trivial⟩ <;> split_ifs <;> rfl
  | false =>
    obtain ⟨hshift, hctrl, hext'⟩ := kbdHandler_flags hext (hplain rfl)
    have hdecode : decode k [code] = (kbdHandler k code).1 := rfl
    simp only [Scancode.bytes, Bool.false_eq_true, if_false, hdecode, hshift, hctrl, hext',
      Scancode.shiftEffect, Scancode.ctrlEffect, true_and]
    refine ⟨?_, ?_, trivial⟩ <;> split_ifs <;> rfl

/-- The flags are switches that the codes of the stream set and clear. -/
theorem decodeStream_flags {k : Kbd} (hext : k.ext = false) (cs : List Scancode) :
    (decodeStream k cs).shift = latch Scancode.shiftEffect k.shift cs ∧
      (decodeStream k cs).ctrl = latch Scancode.ctrlEffect k.ctrl cs ∧
      (decodeStream k cs).ext = false := by
  induction cs generalizing k with
  | nil => exact ⟨rfl, rfl, hext⟩
  | cons c cs ih =>
    obtain ⟨hshift, hctrl, hext'⟩ := decode_bytes hext c
    have hstep : decodeStream k (c :: cs) = decodeStream (decode k c.bytes) cs := by
      rw [decodeStream, decodeStream, List.flatMap_cons, decode, List.foldl_append]
      rfl
    obtain ⟨hshift', hctrl', hdone⟩ := ih hext'
    rw [hstep]
    refine ⟨?_, ?_, hdone⟩
    · rw [hshift', hshift]
      rfl
    · rw [hctrl', hctrl]
      rfl

/-- Where the modifiers are released, a make code of a shift key without the prefix is answered. -/
theorem shift_answered {cs : List Scancode}
    (hcs : Answered Scancode.IsModifierMake Scancode.ReleasedBy cs)
    (hprefixed : Answered Scancode.IsPrefixedShift (fun _ d ↦ d.IsPlainShiftBreak) cs) :
    Answered (fun c ↦ c.shiftEffect = some true) (fun _ d ↦ d.shiftEffect = some false) cs := by
  induction cs with
  | nil => exact trivial
  | cons c cs ih =>
    refine ⟨fun hset ↦ ?_, ih hcs.2 hprefixed.2⟩
    have hc := Scancode.shiftEffect_eq_true.mp hset
    rcases hflag : c.prefixed with - | -
    · obtain ⟨d, hmem, hplain, hcode⟩ := hcs.1 (hc.imp_right Or.inl)
      refine ⟨d, hmem, Scancode.shiftEffect_eq_false.mpr ⟨hplain.trans hflag, ?_⟩⟩
      rcases hc with hleft | hright
      · rw [hcode, hleft]
        exact Or.inl rfl
      · rw [hcode, hright]
        exact Or.inr rfl
    · obtain ⟨d, hmem, hbreak⟩ := hprefixed.1 ⟨hflag, hc⟩
      exact ⟨d, hmem, Scancode.shiftEffect_eq_false.mpr hbreak⟩

/-- After a stream in which every modifier is released no flag is set if and only if every make code
of a shift key behind the prefix has a break code of a shift key without the prefix behind it. -/
theorem modifiers_clear_iff {k : Kbd} (hk : Clear k) {cs : List Scancode}
    (hcs : Answered Scancode.IsModifierMake Scancode.ReleasedBy cs) :
    Clear (decodeStream k cs) ↔
      Answered Scancode.IsPrefixedShift (fun _ d ↦ d.IsPlainShiftBreak) cs := by
  obtain ⟨hshift, hctrl, hext⟩ := decodeStream_flags hk.ext cs
  have hctrlClear : (decodeStream k cs).ctrl = false := by
    rw [hctrl, hk.ctrl, latch_eq_false_iff]
    refine ⟨nofun, hcs.mono (fun c hc ↦ ?_) fun c d hc hd ↦ ?_⟩
    · exact Or.inr (Or.inr (Scancode.ctrlEffect_eq_true.mp hc))
    · rw [Scancode.ctrlEffect_eq_false, hd.2, Scancode.ctrlEffect_eq_true.mp hc]
      rfl
  have hshiftClear : (decodeStream k cs).shift = false ↔
      Answered Scancode.IsPrefixedShift (fun _ d ↦ d.IsPlainShiftBreak) cs := by
    rw [hshift, hk.shift, latch_eq_false_iff]
    constructor
    · rintro ⟨-, hanswer⟩
      exact hanswer.mono (fun c hc ↦ Scancode.shiftEffect_eq_true.mpr hc.2)
        fun c d _ hd ↦ Scancode.shiftEffect_eq_false.mp hd
    · exact fun hprefixed ↦ ⟨nofun, shift_answered hcs hprefixed⟩
  exact ⟨fun h ↦ hshiftClear.mp h.shift, fun h ↦ ⟨hshiftClear.mpr h, hctrlClear, hext⟩⟩

/-- Shift and `a` are pressed and released. -/
def typedCapital : List Scancode :=
  [⟨false, 0x2A, by decide⟩, ⟨false, 0x1E, by decide⟩, ⟨false, 0x9E, by decide⟩,
    ⟨false, 0xAA, by decide⟩]

theorem modifiers_clear_iff_capital :
    Clear (kbdInit fun _ ↦ 0) ∧ Answered Scancode.IsModifierMake Scancode.ReleasedBy typedCapital ∧
      Clear (decodeStream (kbdInit fun _ ↦ 0) typedCapital) := by
  have hclear : Clear (kbdInit fun _ ↦ 0) := ⟨rfl, rfl, rfl⟩
  have hreleased : Answered Scancode.IsModifierMake Scancode.ReleasedBy typedCapital := by decide
  exact ⟨hclear, hreleased, (modifiers_clear_iff hclear hreleased).mpr (by decide)⟩

/-- The print screen key: the controller puts a shift key behind the prefix around it. -/
def printScreen : List Scancode :=
  [⟨true, 0x2A, by decide⟩, ⟨true, 0x37, by decide⟩, ⟨true, 0xB7, by decide⟩,
    ⟨true, 0xAA, by decide⟩]

/-- Print screen is pressed and released, and shift is set. -/
theorem printScreen_sets_shift :
    Answered Scancode.IsMake Scancode.ReleasedBy printScreen ∧
      Answered Scancode.IsModifierMake Scancode.ReleasedBy printScreen ∧
      (decodeStream (kbdInit fun _ ↦ 0) printScreen).shift = true :=
  ⟨by decide, by decide, rfl⟩

end NoOsKernel.Drivers
