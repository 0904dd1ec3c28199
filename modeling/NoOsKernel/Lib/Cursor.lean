import Mathlib.Data.List.InsertIdx
import Mathlib.Tactic.Common

/-!
# A list with a cursor

`Edited α` is a list and a place in it, and `Edit α` what an editor can be told to do. `Begins m l` says
that an array begins with a list; the array keeps up with an insertion or a removal by moving what is
behind the place.
-/

set_option autoImplicit false
set_option relaxedAutoImplicit false

namespace NoOsKernel.Lib

variable {α : Type*}

/-- A list, and the number of its entries before the cursor. -/
@[ext] structure Edited (α : Type*) where
  text : List α
  cur : ℕ
  cur_le : cur ≤ text.length

/-- A command to an editor. -/
inductive Edit (α : Type*)
  | insert (x : α)
  | backspace
  | delete
  | left
  | right
  | home
  | toEnd

namespace Edited

/-- Nothing written yet. -/
def empty : Edited α := ⟨[], 0, Nat.le_refl 0⟩

/-- `x` goes to the left of the cursor. -/
def insert (e : Edited α) (x : α) : Edited α where
  text := e.text.insertIdx e.cur x
  cur := e.cur + 1
  cur_le := by
    rw [List.length_insertIdx, if_pos e.cur_le]
    exact Nat.succ_le_succ e.cur_le

/-- The entry to the left of the cursor goes. -/
def backspace (e : Edited α) : Edited α where
  text := if 0 < e.cur then e.text.eraseIdx (e.cur - 1) else e.text
  cur := e.cur - 1
  cur_le := by
    have hle := e.cur_le
    split_ifs with hpos
    · rw [List.length_eraseIdx_of_lt (by omega)]
      omega
    · omega

/-- The entry to the right of the cursor goes. -/
def delete (e : Edited α) : Edited α where
  text := e.text.eraseIdx e.cur
  cur := e.cur
  cur_le := by
    have hle := e.cur_le
    rw [List.length_eraseIdx]
    split_ifs <;> omega

/-- The cursor goes to a place of the list. -/
def moveTo (e : Edited α) (cur : ℕ) (hcur : cur ≤ e.text.length) : Edited α := ⟨e.text, cur, hcur⟩

/-- One command to an editor with room for `room` entries. -/
def apply (room : ℕ) (e : Edited α) : Edit α → Edited α
  | .insert x => if e.text.length < room then e.insert x else e
  | .backspace => e.backspace
  | .delete => e.delete
  | .left => e.moveTo (e.cur - 1) (Nat.le_trans (Nat.sub_le _ _) e.cur_le)
  | .right => e.moveTo (min (e.cur + 1) e.text.length) (Nat.min_le_right _ _)
  | .home => e.moveTo 0 (Nat.zero_le _)
  | .toEnd => e.moveTo e.text.length (Nat.le_refl _)

variable {e : Edited α} {room : ℕ}

theorem length_insert (x : α) : (e.insert x).text.length = e.text.length + 1 := by
  change (e.text.insertIdx e.cur x).length = _
  rw [List.length_insertIdx, if_pos e.cur_le]

end Edited

/-! ### A list at the beginning of an array -/

/-- The array begins with the list. -/
def Begins (m : ℕ → α) (l : List α) : Prop := ∀ i < l.length, l[i]? = some (m i)

namespace Begins

variable {m m' : ℕ → α} {l : List α} {p : ℕ} {x : α}

theorem nil : Begins m [] := fun _ hi ↦ absurd hi (Nat.not_lt_zero _)

/-- An array holds what its cells say. -/
theorem map_range (m : ℕ → α) (n : ℕ) : Begins m ((List.range n).map m) := by
  intro i hi
  rw [List.length_map, List.length_range] at hi
  rw [List.getElem?_map, List.getElem?_range hi]
  rfl

theorem congr (h : Begins m l) (hcells : ∀ i < l.length, m' i = m i) : Begins m' l := by
  intro i hi
  rw [h i hi, hcells i hi]

/-- The list is the cells of the array. -/
theorem eq_map_range (h : Begins m l) : l = (List.range l.length).map m := by
  apply List.ext_getElem?
  intro i
  obtain hlt | hge := Nat.lt_or_ge i l.length
  · rw [h i hlt, List.getElem?_map, List.getElem?_range hlt]
    rfl
  · rw [List.getElem?_eq_none hge, List.getElem?_eq_none (by simpa using hge)]

/-- An entry goes in at `p`, and what is behind moves up. -/
theorem insertIdx (h : Begins m l) (hp : p ≤ l.length) (hbefore : ∀ i < p, m' i = m i)
    (hplace : m' p = x) (hbehind : ∀ i < l.length, p ≤ i → m' (i + 1) = m i) :
    Begins m' (l.insertIdx p x) := by
  intro i hi
  rw [List.length_insertIdx, if_pos hp] at hi
  rw [List.getElem?_insertIdx]
  obtain hlow | rfl | hhigh := Nat.lt_trichotomy i p
  · rw [if_pos hlow, h i (by omega), hbefore i hlow]
  · rw [if_neg (Nat.lt_irrefl _), if_pos rfl, if_pos hp, hplace]
  · obtain ⟨i, rfl⟩ : ∃ k, i = k + 1 := ⟨i - 1, by omega⟩
    rw [if_neg (by omega), if_neg (by omega), Nat.add_sub_cancel, h i (by omega),
      hbehind i (by omega) (by omega)]

/-- The entry at `p` goes, and what is behind moves down. -/
theorem eraseIdx (h : Begins m l) (hp : p < l.length) (hbefore : ∀ i < p, m' i = m i)
    (hbehind : ∀ i, i + 1 < l.length → p ≤ i → m' i = m (i + 1)) : Begins m' (l.eraseIdx p) := by
  intro i hi
  rw [List.length_eraseIdx_of_lt hp] at hi
  rw [List.getElem?_eraseIdx]
  split_ifs with hlow
  · rw [h i (by omega), hbefore i hlow]
  · rw [h (i + 1) (by omega), hbehind i (by omega) (by omega)]

end Begins

end NoOsKernel.Lib
