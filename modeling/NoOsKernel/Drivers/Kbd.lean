import NoOsKernel.Lib.Memory
import NoOsKernel.Lib.CellRing

/-!
# The keyboard

`kernel/drivers/kbd.c`: the ring of typed bytes, and the decoder of the interrupt handler, which
gets one scancode of set 1 at a time. Codes behind the prefix `0xE0` have a branch of their own.
-/

set_option autoImplicit false
set_option relaxedAutoImplicit false

namespace NoOsKernel.Drivers

open Lib

/-- `BUF_SIZE` -/
def bufSize : ℕ := 256

/-! ### The ring -/

/-- `kbd_push`: a byte for which there is no room is dropped. -/
def kbdPush (r : CellRing Byte) (c : Byte) : CellRing Byte :=
  if CellRing.next bufSize r.head = r.tail then r else r.write bufSize c

/-- `kbd_avail` -/
def kbdAvail (r : CellRing Byte) : Bool := r.head != r.tail

/-- `kbd_getc`, `none` for `-1`. -/
def kbdGetc (r : CellRing Byte) : Option Byte × CellRing Byte :=
  if r.head = r.tail then (none, r) else (some (r.buf r.tail), r.skip bufSize)

/-- `kbd_peekc`, `none` for `-1`. -/
def kbdPeekc (r : CellRing Byte) : Option Byte :=
  if r.head = r.tail then none else some (r.buf r.tail)

/-! ### The decoder -/

/-- The globals of the driver. -/
structure Kbd where
  ring : CellRing Byte
  shift : Bool
  caps : Bool
  ext : Bool
  ctrl : Bool

/-- `kbd_init`, where `ctrl` is as the loader has cleared it. -/
def kbdInit (buf : ℕ → Byte) : Kbd := ⟨⟨buf, 0, 0⟩, false, false, false, false⟩

/-- `kbd_push` -/
def Kbd.push (k : Kbd) (c : Byte) : Kbd := { k with ring := kbdPush k.ring c }

/-- `kb_normal` -/
def kbNormal : List Byte :=
  [0, 27,
    0x31, 0x32, 0x33, 0x34, 0x35, 0x36, 0x37, 0x38, 0x39, 0x30, 0x2d, 0x3d,
    0x08, 0x09,
    0x71, 0x77, 0x65, 0x72, 0x74, 0x79, 0x75, 0x69, 0x6f, 0x70, 0x5b, 0x5d,
    0x0a, 0,
    0x61, 0x73, 0x64, 0x66, 0x67, 0x68, 0x6a, 0x6b, 0x6c, 0x3b, 0x27, 0x60,
    0, 0x5c,
    0x7a, 0x78, 0x63, 0x76, 0x62, 0x6e, 0x6d, 0x2c, 0x2e, 0x2f,
    0, 0x2a, 0, 0x20] ++ List.replicate 70 0

/-- `kb_shift` -/
def kbShift : List Byte :=
  [0, 27,
    0x21, 0x40, 0x23, 0x24, 0x25, 0x5e, 0x26, 0x2a, 0x28, 0x29, 0x5f, 0x2b,
    0x08, 0x09,
    0x51, 0x57, 0x45, 0x52, 0x54, 0x59, 0x55, 0x49, 0x4f, 0x50, 0x7b, 0x7d,
    0x0a, 0,
    0x41, 0x53, 0x44, 0x46, 0x47, 0x48, 0x4a, 0x4b, 0x4c, 0x3a, 0x22, 0x7e,
    0, 0x7c,
    0x5a, 0x58, 0x43, 0x56, 0x42, 0x4e, 0x4d, 0x3c, 0x3e, 0x3f,
    0, 0x2a, 0, 0x20] ++ List.replicate 70 0

/-- The keys that `kbd_handler` knows behind the prefix, with the bytes it stores for them:
`KBD_UP`, `KBD_DOWN`, `KBD_LEFT`, `KBD_RIGHT`, `KBD_HOME`, `KBD_END` and `KBD_DEL`. -/
def extendedKeys : List (Byte × Byte) :=
  [(0x48, 0x80), (0x50, 0x81), (0x4B, 0x82), (0x4D, 0x83), (0x47, 0x84), (0x4F, 0x85), (0x53, 0x86)]

/-- The branch of `kbd_handler` behind the prefix. -/
def kbdExtended (k : Kbd) (sc : Byte) : Kbd :=
  if sc = 0x1D then { k with ctrl := true }
  else if sc = 0x9D then { k with ctrl := false }
  else if sc = 0x2A then { k with shift := true }
  else if sc = 0x36 then { k with shift := true }
  else
    match extendedKeys.lookup sc with
    | some c => k.push c
    | none => k

/-- The byte of a key, with the modifiers. -/
def keyByte (k : Kbd) (sc : Byte) : Byte :=
  let table := if k.shift ^^ k.caps then kbShift else kbNormal
  let c := table.getD (sc &&& 0x7F).toNat 0
  if k.ctrl ∧ 0x61 ≤ c ∧ c ≤ 0x7A then c - 0x61 + 1 else c

/-- `kbd_handler`: the globals it leaves, and whether it calls `sched_on_key`. -/
def kbdHandler (k : Kbd) (sc : Byte) : Kbd × Bool :=
  if k.ext then (kbdExtended { k with ext := false } sc, false)
  else if sc = 0xE0 then ({ k with ext := true }, false)
  else if sc = 0x2A ∨ sc = 0x36 then ({ k with shift := true }, false)
  else if sc = 0xAA ∨ sc = 0xB6 then ({ k with shift := false }, false)
  else if sc = 0x1D then ({ k with ctrl := true }, false)
  else if sc = 0x9D then ({ k with ctrl := false }, false)
  else if sc = 0x3A then ({ k with caps := !k.caps }, false)
  else if sc &&& 0x80 ≠ 0 then (k, false)
  else if keyByte k sc ≠ 0 then (k.push (keyByte k sc), true)
  else (k, true)

/-! ### What is stored -/

/-- A push finds room. -/
def HasRoom (r : CellRing Byte) : Prop := CellRing.next bufSize r.head ≠ r.tail

instance (r : CellRing Byte) : Decidable (HasRoom r) := inferInstanceAs (Decidable (_ ≠ _))

theorem kbdPush_of_room {r : CellRing Byte} (h : HasRoom r) (c : Byte) :
    kbdPush r c = r.write bufSize c :=
  if_neg h

theorem kbdPush_of_full {r : CellRing Byte} (h : ¬ HasRoom r) (c : Byte) : kbdPush r c = r :=
  if_pos (not_not.mp h)

end NoOsKernel.Drivers
