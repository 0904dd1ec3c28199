import Mathlib.Data.List.Pairwise
import Mathlib.Tactic.Common

/-!
# Bump allocation

Blocks are pairs of an address and a size. `Bumped base top blocks` says that they lie between `base`
and `top` and that no two of them overlap. A bump allocator keeps it by placing every new block at
`top` and moving `top` past the end of the block.
-/

set_option autoImplicit false
set_option relaxedAutoImplicit false

namespace NoOsKernel.Lib

/-- One block ends before the other begins. -/
def BlocksApart (b b' : ℕ × ℕ) : Prop := b.1 + b.2 ≤ b'.1 ∨ b'.1 + b'.2 ≤ b.1

/-- The blocks lie between `base` and `top` and apart from each other. -/
structure Bumped (base top : ℕ) (blocks : List (ℕ × ℕ)) : Prop where
  le : base ≤ top
  low : ∀ b ∈ blocks, base ≤ b.1
  high : ∀ b ∈ blocks, b.1 + b.2 ≤ top
  apart : blocks.Pairwise BlocksApart

namespace Bumped

variable {base top : ℕ} {blocks : List (ℕ × ℕ)}

theorem nil (hle : base ≤ top) : Bumped base top [] :=
  ⟨hle, nofun, nofun, List.Pairwise.nil⟩

/-- The top may move up. -/
theorem raise (h : Bumped base top blocks) {top' : ℕ} (hle : top ≤ top') :
    Bumped base top' blocks :=
  ⟨Nat.le_trans h.le hle, h.low, fun b hb ↦ Nat.le_trans (h.high b hb) hle, h.apart⟩

/-- A new block is placed at the top. -/
theorem push (h : Bumped base top blocks) {size top' : ℕ} (hsize : top + size ≤ top') :
    Bumped base top' ((top, size) :: blocks) := by
  have hraised := h.raise (show top ≤ top' by omega)
  refine ⟨hraised.le, ?_, ?_, List.pairwise_cons.mpr ⟨fun b hb ↦ Or.inr (h.high b hb), h.apart⟩⟩
  · intro b hb
    obtain rfl | hb := List.mem_cons.mp hb
    · exact h.le
    · exact h.low b hb
  · intro b hb
    obtain rfl | hb := List.mem_cons.mp hb
    · exact hsize
    · exact hraised.high b hb

end Bumped

end NoOsKernel.Lib
