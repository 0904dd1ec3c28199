import Mathlib.Logic.Function.Basic
import Mathlib.Tactic.Common

/-!
# Rings of cells

A `CellRing` is an array with a cursor where the next entry is written and a cursor where the next
one is read. Both go round in `n` cells, and one cell is always left free, so that equal cursors
mean that nothing is stored. `CellRing.Stores n r xs` says that the entries between the cursors are
`xs`, the oldest first; the rules are what the two cursors tell about `xs`, and what a write and a
read make of it.
-/

set_option autoImplicit false
set_option relaxedAutoImplicit false

namespace NoOsKernel.Lib

variable {α : Type*}

/-- Cells with a cursor for writing and one for reading. -/
structure CellRing (α : Type*) where
  buf : ℕ → α
  head : ℕ
  tail : ℕ

namespace CellRing

/-- The next cell of `n`. -/
def next (n i : ℕ) : ℕ := (i + 1) % n

/-- An entry is written, and the cursor moves on. -/
def write (n : ℕ) (r : CellRing α) (x : α) : CellRing α :=
  { r with buf := Function.update r.buf r.head x, head := next n r.head }

/-- The cursor for reading moves on. -/
def skip (n : ℕ) (r : CellRing α) : CellRing α := { r with tail := next n r.tail }

/-- Between the cursors stand the entries `xs`, and a cell is free. -/
structure Stores (n : ℕ) (r : CellRing α) (xs : List α) : Prop where
  room : xs.length < n
  tail_lt : r.tail < n
  head_eq : r.head = (r.tail + xs.length) % n
  cell : ∀ k < xs.length, xs[k]? = some (r.buf ((r.tail + k) % n))

/-- Going round takes one lap at most. -/
theorem add_mod_eq {n a k : ℕ} (ha : a < n) (hk : k < n) :
    (a + k) % n = if a + k < n then a + k else a + k - n := by
  split_ifs with hlt
  · exact Nat.mod_eq_of_lt hlt
  · rw [Nat.mod_eq_sub_mod (Nat.not_lt.mp hlt), Nat.mod_eq_of_lt (by omega)]

/-- From one cell, different numbers of steps lead to different cells. -/
theorem add_mod_inj {n a k l : ℕ} (ha : a < n) (hk : k < n) (hl : l < n)
    (h : (a + k) % n = (a + l) % n) : k = l := by
  rw [add_mod_eq ha hk, add_mod_eq ha hl] at h
  split_ifs at h <;> omega

variable {n : ℕ} {r : CellRing α} {x : α} {xs : List α}

theorem stores_nil (hn : 0 < n) (buf : ℕ → α) : Stores n ⟨buf, 0, 0⟩ [] where
  room := hn
  tail_lt := hn
  head_eq := (Nat.zero_mod n).symm
  cell k hk := absurd hk (Nat.not_lt_zero k)

namespace Stores

/-- The cursors meet when nothing is stored. -/
theorem head_eq_tail_iff (h : Stores n r xs) : r.head = r.tail ↔ xs = [] := by
  have htail : (r.tail + 0) % n = r.tail := Nat.mod_eq_of_lt h.tail_lt
  rw [h.head_eq, ← List.length_eq_zero_iff]
  constructor
  · intro heq
    exact add_mod_inj h.tail_lt h.room (Nat.zero_lt_of_lt h.room) (heq.trans htail.symm)
  · intro hzero
    rw [hzero, htail]

theorem next_head (h : Stores n r xs) : next n r.head = (r.tail + (xs.length + 1)) % n := by
  rw [next, h.head_eq, Nat.mod_add_mod, Nat.add_assoc]

/-- The cursor for writing is right behind the other one when only one cell is free. -/
theorem next_head_eq_tail_iff (h : Stores n r xs) :
    next n r.head = r.tail ↔ xs.length + 1 = n := by
  rw [h.next_head]
  constructor
  · intro heq
    by_contra hne
    have hroom := h.room
    have htail : (r.tail + 0) % n = r.tail := Nat.mod_eq_of_lt h.tail_lt
    have hzero := add_mod_inj h.tail_lt (by omega) (Nat.zero_lt_of_lt hroom) (heq.trans htail.symm)
    omega
  · intro hfull
    rw [hfull, Nat.add_mod_right, Nat.mod_eq_of_lt h.tail_lt]

/-- An entry is written behind those that are stored. -/
theorem write (h : Stores n r xs) (hroom : xs.length + 1 < n) (x : α) :
    Stores n (r.write n x) (xs ++ [x]) where
  room := by rwa [List.length_append, List.length_singleton]
  tail_lt := h.tail_lt
  head_eq := by
    rw [List.length_append, List.length_singleton]
    exact h.next_head
  cell k hk := by
    rw [List.length_append, List.length_singleton] at hk
    change (xs ++ [x])[k]? = some (Function.update r.buf r.head x ((r.tail + k) % n))
    by_cases hlast : k = xs.length
    · rw [hlast, List.getElem?_append_right (Nat.le_refl _), Nat.sub_self, ← h.head_eq,
        Function.update_self]
      rfl
    · have hold : k < xs.length := by omega
      have hne : (r.tail + k) % n ≠ r.head := by
        rw [h.head_eq]
        intro heq
        exact hlast (add_mod_inj h.tail_lt (by omega) h.room heq)
      rw [List.getElem?_append_left hold, Function.update_of_ne hne]
      exact h.cell k hold

/-- The cursor for reading is at the oldest entry. -/
theorem first (h : Stores n r (x :: xs)) : r.buf r.tail = x := by
  have hcell := h.cell 0 (Nat.succ_pos _)
  rw [Nat.add_zero, Nat.mod_eq_of_lt h.tail_lt, List.getElem?_cons_zero] at hcell
  exact (Option.some.inj hcell).symm

/-- The oldest entry is passed. -/
theorem skip (h : Stores n r (x :: xs)) : Stores n (r.skip n) xs where
  room := Nat.lt_of_succ_lt h.room
  tail_lt := Nat.mod_lt _ (Nat.zero_lt_of_lt h.tail_lt)
  head_eq := by
    change r.head = (next n r.tail + xs.length) % n
    rw [h.head_eq, next, Nat.mod_add_mod, List.length_cons, Nat.add_assoc, Nat.add_comm 1]
  cell k hk := by
    have hcell := h.cell (k + 1) (Nat.succ_lt_succ hk)
    rw [List.getElem?_cons_succ] at hcell
    change xs[k]? = some (r.buf ((next n r.tail + k) % n))
    rw [hcell, next, Nat.mod_add_mod, Nat.add_assoc, Nat.add_comm 1]

end Stores

end CellRing

end NoOsKernel.Lib
