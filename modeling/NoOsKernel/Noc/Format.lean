import NoOsKernel.Kern.Format

/-!
# The formatter of NOC

`noc_format` of `kernel/noc/vm.c`: `Print` and its relatives over an array of words. It shares the
conversions with `vsprintk`, but it takes its arguments from the array, stops when there is none
left, and does not look for the end of the format behind `%`.
-/

set_option autoImplicit false
set_option relaxedAutoImplicit false

namespace NoOsKernel.Noc

open Lib Kern

variable (cap : ℕ) (fmt : ℕ → Byte) (mem : BitVec 64 → Byte) (args : ℕ → BitVec 64) (n : ℕ)

/-- `w + 1 < cap` -/
def roomLeft (w : ℕ) : Bool := decide (w + 1 < cap)

/-- The `switch` of `noc_format`. -/
def nocFormatConv (fuel : ℕ) (c : Byte) (s : Formatter) : Option Formatter :=
  if c = chr 'c' then
    let (v, s) := s.arg args
    some (s.put (v.setWidth 8))
  else if c = chr 's' then
    let (str, s) := s.arg args
    putString mem (roomLeft cap) fuel str s
  else if c = chr 'd' then
    let (v, s) := s.arg args
    some (putSigned (roomLeft cap) v s)
  else if c = chr 'u' then
    let (v, s) := s.arg args
    some (putUnsigned (roomLeft cap) v s)
  else if c = chr 'x' ∨ c = chr 'X' then
    let (v, s) := s.arg args
    some (aformat s (cap - s.w) 16 v.toNat (c == chr 'X'))
  else if c = chr 'p' then
    let (v, s) := s.arg args
    let s := s.put (chr '0')
    let s := if roomLeft cap s.w then s.put (chr 'x') else s
    some (aformat s (cap - s.w) 16 v.toNat false)
  else
    let s := s.put (chr '%')
    some (if roomLeft cap s.w then s.put c else s)

/-- The loop of `noc_format`. -/
def nocFormatLoop : ℕ → Formatter → Option Formatter
  | 0, _ => none
  | fuel + 1, s =>
    let (c, s) := s.peek fmt
    if c = 0 ∨ roomLeft cap s.w = false then some s
    else
      let (c, s) := s.next fmt
      if c ≠ chr '%' then nocFormatLoop fuel (s.put c)
      else
        let (_, c, s) := conversion fmt s
        if c = chr '%' then nocFormatLoop fuel (s.put (chr '%'))
        else if n ≤ s.a then some s
        else
          match nocFormatConv cap mem args fuel c s with
          | none => none
          | some s => nocFormatLoop fuel s

/-- `noc_format`: whether it has formatted, and where it stands at the end. There may be no
buffer. -/
def nocFormat (fuel : ℕ) : Option (ℕ → Byte) → Option (Bool × Formatter)
  | none => some (false, .start fun _ ↦ 0)
  | some out =>
    if cap = 0 then some (false, .start out)
    else
      match nocFormatLoop cap fmt mem args n fuel (.start out) with
      | none => none
      | some s => some (true, s.terminate)

end NoOsKernel.Noc
