import NoOsKernel.Lib.Memory
import Mathlib.Logic.Function.Basic

/-!
# The formatter of the kernel

`kernel/kern/format.c`: `aformat` and `vsprintk`. A formatter reads its format through a pointer,
takes its arguments one after another and writes a buffer; all three are memories without an end
here, and the indices it uses are recorded. A loop over a string is cut off after `fuel` rounds.
-/

set_option autoImplicit false
set_option relaxedAutoImplicit false

namespace NoOsKernel.Kern

open Lib

/-- A character of the source. -/
def chr (c : Char) : Byte := BitVec.ofNat 8 c.toNat

/-- Where a formatter stands: its buffer, how far it is in buffer, format and arguments, and the
indices it has used of each. -/
structure Formatter where
  out : ℕ → Byte
  w : ℕ
  p : ℕ
  a : ℕ
  written : List ℕ
  fmtRead : List ℕ
  argRead : List ℕ

namespace Formatter

/-- A formatter at the start of everything. -/
def start (out : ℕ → Byte) : Formatter := ⟨out, 0, 0, 0, [], [], []⟩

/-- `buf[w++] = v` -/
def put (s : Formatter) (v : Byte) : Formatter :=
  { s with out := Function.update s.out s.w v, w := s.w + 1, written := s.w :: s.written }

/-- `buf[w] = '\0'` -/
def terminate (s : Formatter) : Formatter :=
  { s with out := Function.update s.out s.w 0, written := s.w :: s.written }

/-- `*fmt` -/
def peek (fmt : ℕ → Byte) (s : Formatter) : Byte × Formatter :=
  (fmt s.p, { s with fmtRead := s.p :: s.fmtRead })

/-- `*fmt++` -/
def next (fmt : ℕ → Byte) (s : Formatter) : Byte × Formatter :=
  (fmt s.p, { s with p := s.p + 1, fmtRead := s.p :: s.fmtRead })

/-- `args[a++]` -/
def arg (args : ℕ → BitVec 64) (s : Formatter) : BitVec 64 × Formatter :=
  (args s.a, { s with a := s.a + 1, argRead := s.a :: s.argRead })

end Formatter

/-! ### Digits -/

/-- `ldig` and `udig`, without the `'\0'` behind them. -/
def digitTable (upper : Bool) : List Byte :=
  (if upper then "0123456789ABCDEF" else "0123456789abcdef").toList.map chr

/-- `dig[d]`. What is behind the table is read as zero. -/
def digit (upper : Bool) (d : ℕ) : Byte := (digitTable upper).getD d 0

/-- `while (v && i < sizeof(tmp)) { tmp[i++] = dig[v % base]; v /= base; }`. There is room for
`room` more digits in `tmp`, whose newest one is the first. -/
def pushDigits (base : ℕ) (upper : Bool) : ℕ → ℕ → List Byte → List Byte
  | 0, _, tmp => tmp
  | room + 1, v, tmp =>
    if v = 0 then tmp else pushDigits base upper room (v / base) (digit upper (v % base) :: tmp)

/-- The indices at which `pushDigits` reads the table, the first one first. -/
def tableReads (base : ℕ) : ℕ → ℕ → List ℕ
  | 0, _ => []
  | room + 1, v => if v = 0 then [] else v % base :: tableReads base room (v / base)

/-- The digits in `tmp`, which has room for `room` of them. -/
def digits (base : ℕ) (upper : Bool) (room v : ℕ) : List Byte :=
  if v = 0 then [chr '0'] else pushDigits base upper room v []

/-- `while (i > 0 && more) buf[w++] = tmp[--i];` -/
def putDigits (more : ℕ → Bool) : List Byte → Formatter → Formatter
  | [], s => s
  | d :: tmp, s => if more s.w then putDigits more tmp (s.put d) else s

/-- `aformat` at `buf + w`, with the `w += n` of its callers. -/
def aformat (s : Formatter) (n base v : ℕ) (upper : Bool) : Formatter :=
  let base := if base < 2 ∨ 36 < base then 10 else base
  let s' := putDigits (fun w ↦ decide (w - s.w + 1 < n)) (digits base upper 65 v) s
  if 0 < n then s'.terminate else s'

/-- `while (*s && more) buf[w++] = *s++;` -/
def putStr (mem : BitVec 64 → Byte) (more : ℕ → Bool) :
    ℕ → BitVec 64 → Formatter → Option Formatter
  | 0, _, _ => none
  | fuel + 1, str, s =>
    if mem str ≠ 0 ∧ more s.w then putStr mem more fuel (str + 1) (s.put (mem str)) else some s

/-- The loop of `putStr` over the text of a literal. -/
def putText (more : ℕ → Bool) : List Byte → Formatter → Formatter
  | [], s => s
  | c :: text, s => if more s.w then putText more text (s.put c) else s

/-- `"(null)"` -/
def nullText : List Byte := "(null)".toList.map chr

/-- The signed conversion: the digits of the magnitude behind the sign. `-v` wraps around. -/
def putSigned (more : ℕ → Bool) (v : BitVec 64) (s : Formatter) : Formatter :=
  let neg := v.slt 0
  let u := if neg then -v else v
  let s := if neg ∧ more s.w then s.put (chr '-') else s
  putDigits more (digits 10 false 24 u.toNat) s

/-- The unsigned conversion. -/
def putUnsigned (more : ℕ → Bool) (v : BitVec 64) (s : Formatter) : Formatter :=
  putDigits more (digits 10 false 24 v.toNat) s

/-- The conversion of a string. -/
def putString (mem : BitVec 64 → Byte) (more : ℕ → Bool) (fuel : ℕ) (str : BitVec 64)
    (s : Formatter) : Option Formatter :=
  if str = 0 then some (putText more nullText s) else putStr mem more fuel str s

/-- The length modifiers behind `%`, the conversion character, and what is left. -/
def conversion (fmt : ℕ → Byte) (s : Formatter) : ℕ × Byte × Formatter :=
  let (c, s) := s.next fmt
  if c = chr 'l' then
    let (c, s) := s.next fmt
    if c = chr 'l' then (2, s.next fmt) else (1, c, s)
  else (0, c, s)

/-! ### `vsprintk` -/

variable (fmt : ℕ → Byte) (mem : BitVec 64 → Byte) (ap : ℕ → BitVec 64) (cap : ℕ)

/-- `cap == 0 || w + 1 < cap` -/
def hasRoom (w : ℕ) : Bool := decide (cap = 0 ∨ w + 1 < cap)

/-- `va_arg(ap, int)`, widened: an `int` is the low half of its slot. -/
def vaInt (s : Formatter) : BitVec 64 × Formatter :=
  let (v, s) := s.arg ap
  ((v.setWidth 32).signExtend 64, s)

/-- `va_arg(ap, unsigned)`, widened. -/
def vaUnsigned (s : Formatter) : BitVec 64 × Formatter :=
  let (v, s) := s.arg ap
  ((v.setWidth 32).setWidth 64, s)

/-- The `switch` of `vsprintk`. -/
def vsprintkConv (fuel len : ℕ) (c : Byte) (s : Formatter) : Option Formatter :=
  if c = chr '%' then some (s.put (chr '%'))
  else if c = chr 'c' then
    let (v, s) := vaInt ap s
    some (s.put (v.setWidth 8))
  else if c = chr 's' then
    let (str, s) := s.arg ap
    putString mem (hasRoom cap) fuel str s
  else if c = chr 'd' then
    let (v, s) := if len = 2 then s.arg ap else vaInt ap s
    some (putSigned (hasRoom cap) v s)
  else if c = chr 'u' then
    let (v, s) := if len = 2 then s.arg ap else vaUnsigned ap s
    some (putUnsigned (hasRoom cap) v s)
  else if c = chr 'x' then
    let (v, s) := if len = 2 then s.arg ap else vaUnsigned ap s
    some (aformat s (cap - s.w) 16 v.toNat false)
  else if c = chr 'p' then
    let (v, s) := s.arg ap
    let s := s.put (chr '0')
    let s := if hasRoom cap s.w then s.put (chr 'x') else s
    some (aformat s (cap - s.w) 16 v.toNat false)
  else if c = 0 then some { s with p := s.p - 1 }
  else
    let s := s.put (chr '%')
    some (if hasRoom cap s.w then s.put c else s)

/-- The loop of `vsprintk`. -/
def vsprintkLoop : ℕ → Formatter → Option Formatter
  | 0, _ => none
  | fuel + 1, s =>
    let (c, s) := s.peek fmt
    if c = 0 ∨ hasRoom cap s.w = false then some s
    else
      let (c, s) := s.next fmt
      if c ≠ chr '%' then vsprintkLoop fuel (s.put c)
      else
        let (len, c, s) := conversion fmt s
        match vsprintkConv mem ap cap fuel len c s with
        | none => none
        | some s => vsprintkLoop fuel s

/-- `vsprintk`, and so `sprintk`, which only collects the arguments. -/
def vsprintk (fuel : ℕ) (out : ℕ → Byte) : Option Formatter :=
  match vsprintkLoop fmt mem ap cap fuel (.start out) with
  | none => none
  | some s => some (if 0 < cap then s.terminate else s)

end NoOsKernel.Kern
