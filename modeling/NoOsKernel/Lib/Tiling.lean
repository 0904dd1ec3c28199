import NoOsKernel.Lib.Layers

/-!
# Tilings of an interval

Tiles that follow one another from one number to another without a gap. They are pairwise disjoint,
as layers are, and cover the interval. Tilings that meet are put together.
-/

set_option autoImplicit false
set_option relaxedAutoImplicit false

namespace NoOsKernel.Lib

/-- An interval, by its start and its size. -/
structure Tile where
  start : ℕ
  size : ℕ
  deriving DecidableEq

/-- The numbers in a tile. -/
def Tile.cells (t : Tile) : Set ℕ := Set.Ico t.start (t.start + t.size)

theorem Tile.mem_cells_iff {t : Tile} {k : ℕ} : k ∈ t.cells ↔ ∃ i < t.size, k = t.start + i := by
  constructor
  · rintro ⟨hlow, hhigh⟩
    exact ⟨k - t.start, by omega, (Nat.add_sub_cancel' hlow).symm⟩
  · rintro ⟨i, hi, rfl⟩
    exact ⟨Nat.le_add_right _ _, Nat.add_lt_add_left hi _⟩

/-- The tiles follow one another from `lo` to `hi`. -/
def Tiles : ℕ → List Tile → ℕ → Prop
  | lo, [], hi => lo = hi
  | lo, t :: ts, hi => t.start = lo ∧ Tiles (lo + t.size) ts hi

variable {lo mid hi : ℕ} {ts us : List Tile}

theorem Tiles.append (h : Tiles lo ts mid) (h' : Tiles mid us hi) : Tiles lo (ts ++ us) hi := by
  induction ts generalizing lo with
  | nil => exact h.symm ▸ h'
  | cons t ts ih => exact ⟨h.1, ih h.2⟩

/-- Tilings between the numbers of a sequence make one tiling. -/
theorem tiles_flatMap {f : ℕ → List Tile} {pos : ℕ → ℕ} {n : ℕ}
    (h : ∀ l < n, Tiles (pos l) (f l) (pos (l + 1))) :
    Tiles (pos 0) ((List.range n).flatMap f) (pos n) := by
  induction n with
  | zero => rfl
  | succ n ih =>
    rw [List.range_succ, List.flatMap_append, List.flatMap_singleton]
    exact (ih fun l hl ↦ h l (Nat.lt_succ_of_lt hl)).append (h n (Nat.lt_succ_self n))

/-- Tiles are layers. -/
theorem Tiles.layered (h : Tiles lo ts hi) : Layered lo (ts.map Tile.cells) hi := by
  induction ts generalizing lo with
  | nil => exact .nil (le_of_eq h)
  | cons t ts ih =>
    obtain ⟨rfl, h⟩ := h
    exact .cons (le_refl _) (Nat.le_add_right _ _) (ih h)

theorem Tiles.le (h : Tiles lo ts hi) : lo ≤ hi := h.layered.bounds.1

theorem Tiles.pairwise (h : Tiles lo ts hi) : (ts.map Tile.cells).Pairwise Disjoint :=
  h.layered.pairwise

/-- Every number of the interval is in a tile. -/
theorem Tiles.covers (h : Tiles lo ts hi) {k : ℕ} (hlo : lo ≤ k) (hhi : k < hi) :
    ∃ t ∈ ts, k ∈ t.cells := by
  induction ts generalizing lo with
  | nil => exact absurd (h ▸ hhi) (Nat.not_lt.mpr hlo)
  | cons t ts ih =>
    obtain ⟨rfl, h⟩ := h
    by_cases hk : k < t.start + t.size
    · exact ⟨t, List.mem_cons_self, hlo, hk⟩
    · obtain ⟨u, hu, hcell⟩ := ih h (Nat.not_lt.mp hk)
      exact ⟨u, List.mem_cons_of_mem t hu, hcell⟩

end NoOsKernel.Lib
