import Mathlib
import NoOsKernel.Lib.BitArray
import NoOsKernel.Lib.Dialog
import NoOsKernel.Noc.Ast

/-!
# The arena

`noc_arena_alloc` of `kernel/noc/lexer.c`, in machine words: additions wrap around. Lexer and parser
are programs that ask, and an arena answers them.
-/

set_option autoImplicit false
set_option relaxedAutoImplicit false

namespace NoOsKernel.Noc

open Lib

/-- `noc_arena`. -/
structure Arena where
  base : U64
  used : U64
  cap : U64
  deriving DecidableEq

/-- `noc_arena_alloc`: the address, `0` for `NULL`. -/
def nocArenaAlloc (a : Arena) (n : U64) : U64 × Arena :=
  let n := (n + 15#64) &&& ~~~15#64
  if a.base = 0 ∨ a.cap < a.used + n then (0, a)
  else (a.base + a.used, { a with used := a.used + n })

variable {ρ : Type}

/-- The answer of an arena to a request for `size r` bytes. -/
def Arena.answer (size : ρ → ℕ) (a : Arena) (r : ρ) : Bool × Arena :=
  let (p, a) := nocArenaAlloc a (BitVec.ofNat 64 (size r))
  (p ≠ 0, a)

/-- The bytes that `n` bytes take up. -/
def roundUp (n : ℕ) : ℕ := (n + 15) / 16 * 16

/-- A region of memory in which `n` bytes are left. -/
structure Arena.Fits (a : Arena) (n : ℕ) : Prop where
  base : a.base ≠ 0
  room : a.used.toNat + n ≤ a.cap.toNat
  region : a.base.toNat + a.cap.toNat ≤ 2 ^ 64

theorem toNat_roundUp {n : ℕ} (hn : n + 15 < 2 ^ 64) :
    ((BitVec.ofNat 64 n + 15#64) &&& ~~~15#64).toNat = roundUp n := by
  have hsum : (BitVec.ofNat 64 n + 15#64).toNat = n + 15 := by
    rw [BitVec.toNat_add, BitVec.toNat_ofNat]
    exact (Nat.mod_add_mod _ _ _).trans (Nat.mod_eq_of_lt hn)
  have hlow : (BitVec.ofNat 64 n + 15#64) &&& ~~~15#64 = (BitVec.ofNat 64 n + 15#64) >>> 4 <<< 4 :=
    and_not_low _ 4
  rw [hlow, BitVec.toNat_shiftLeft, BitVec.toNat_ushiftRight, hsum, roundUp, Nat.shiftLeft_eq,
    Nat.shiftRight_eq_div_pow]
  exact Nat.mod_eq_of_lt (by omega)

theorem roundUp_pos {n : ℕ} (hn : 0 < n) : 16 ≤ roundUp n := by
  unfold roundUp
  omega

/-- What fits is granted, and the rest still fits. -/
theorem Arena.Fits.answer {a : Arena} {size : ρ → ℕ} {r : ρ} {n : ℕ}
    (h : a.Fits (roundUp (size r) + n)) (hr : 0 < size r) :
    (a.answer size r).1 = true ∧ (a.answer size r).2.Fits n := by
  obtain ⟨hbase, hroom, hregion⟩ := h
  have hpos := roundUp_pos hr
  have hle : size r ≤ roundUp (size r) := by
    unfold roundUp
    omega
  have hcap := a.cap.isLt
  have hsize : size r + 15 < 2 ^ 64 := by
    unfold roundUp at hroom
    omega
  have hused : (a.used + ((BitVec.ofNat 64 (size r) + 15#64) &&& ~~~15#64)).toNat =
      a.used.toNat + roundUp (size r) := by
    rw [BitVec.toNat_add, toNat_roundUp hsize]
    exact Nat.mod_eq_of_lt (by omega)
  have hfits : ¬ (a.base = 0 ∨
      a.cap < a.used + ((BitVec.ofNat 64 (size r) + 15#64) &&& ~~~15#64)) := by
    rintro (hzero | hlt)
    · exact hbase hzero
    · have hlt := BitVec.lt_def.mp hlt
      omega
  have haddr : a.base + a.used ≠ 0 := by
    intro hzero
    have hpos : 0 < a.base.toNat := Nat.pos_of_ne_zero fun h0 ↦ hbase (BitVec.eq_of_toNat_eq h0)
    have hsum := congrArg BitVec.toNat hzero
    rw [BitVec.toNat_add, Nat.mod_eq_of_lt (by omega)] at hsum
    change _ = 0 at hsum
    omega
  simp only [Arena.answer, nocArenaAlloc, if_neg hfits]
  refine ⟨decide_eq_true haddr, hbase, ?_, hregion⟩
  change (a.used + _).toNat + n ≤ a.cap.toNat
  rw [hused]
  omega

theorem meets_of_fits {a : Arena} {size : ρ → ℕ} {rs : List ρ} (hpos : ∀ r ∈ rs, 0 < size r)
    (h : a.Fits (rs.map fun r ↦ roundUp (size r)).sum) :
    Dialog.Meets (Arena.answer size) a rs := by
  induction rs generalizing a with
  | nil => exact trivial
  | cons r rs ih =>
    obtain ⟨hr, hrs⟩ := List.forall_mem_cons.mp hpos
    rw [List.map_cons, List.sum_cons] at h
    obtain ⟨hgranted, hrest⟩ := h.answer hr
    exact ⟨hgranted, ih hrs hrest⟩

/-- An arena that refuses nothing, since no sum exceeds its capacity. -/
structure Arena.Boundless (a : Arena) : Prop where
  base : a.base = 1#64
  used : a.used.toNat % 16 = 0
  cap : a.cap = BitVec.allOnes 64

theorem Arena.Boundless.answer {a : Arena} (h : a.Boundless) (size : ρ → ℕ) (r : ρ) :
    (a.answer size r).1 = true ∧ (a.answer size r).2.Boundless := by
  obtain ⟨hbase, hused, hcap⟩ := h
  have hlow (v : U64) : (v &&& ~~~15#64).toNat % 16 = 0 := by
    have hclear : v &&& ~~~15#64 = v >>> 4 <<< 4 := and_not_low v 4
    have hv := v.isLt
    rw [hclear, BitVec.toNat_shiftLeft, BitVec.toNat_ushiftRight, Nat.shiftLeft_eq,
      Nat.shiftRight_eq_div_pow]
    omega
  have hfits : ¬ (a.base = 0 ∨
      a.cap < a.used + ((BitVec.ofNat 64 (size r) + 15#64) &&& ~~~15#64)) := by
    rintro (hzero | hlt)
    · exact absurd (hbase.symm.trans hzero) (by decide)
    · have htop := BitVec.lt_def.mp hlt
      have hsum := (a.used + ((BitVec.ofNat 64 (size r) + 15#64) &&& ~~~15#64)).isLt
      rw [hcap, BitVec.toNat_allOnes] at htop
      omega
  have haddr : a.base + a.used ≠ 0 := by
    intro hzero
    have hlt := a.used.isLt
    have hsum := congrArg BitVec.toNat hzero
    rw [hbase, BitVec.toNat_add] at hsum
    change (1 + a.used.toNat) % 2 ^ 64 = 0 at hsum
    omega
  simp only [Arena.answer, nocArenaAlloc, if_neg hfits]
  refine ⟨decide_eq_true haddr, hbase, ?_, hcap⟩
  have hn := hlow (BitVec.ofNat 64 (size r) + 15#64)
  change (a.used + _).toNat % 16 = 0
  rw [BitVec.toNat_add]
  omega

theorem meets_of_boundless {a : Arena} (h : a.Boundless) (size : ρ → ℕ) (rs : List ρ) :
    Dialog.Meets (Arena.answer size) a rs := by
  induction rs generalizing a with
  | nil => exact trivial
  | cons r rs ih => exact ⟨(h.answer size r).1, ih (h.answer size r).2⟩

end NoOsKernel.Noc
