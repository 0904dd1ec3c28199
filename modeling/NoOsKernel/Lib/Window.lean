import Mathlib

/-!
# Sliding windows of weighted entries

A bounded log keeps the newest entries of a sequence whose total size fits. `IsWindow cap size xs w`
says that `w` is the longest suffix of `xs` of total size at most `cap`. `trim` computes it by
dropping entries from the front one by one, and `trim_snoc` is how a log maintains it: to append an
entry, trim what is kept to the room the new entry leaves.
-/

set_option autoImplicit false
set_option relaxedAutoImplicit false

namespace NoOsKernel.Lib.Window

variable {α : Type*} (size : α → ℕ)

/-- The total size of some entries. -/
def total (xs : List α) : ℕ := (xs.map size).sum

@[simp] theorem total_nil : total size [] = 0 := rfl

@[simp] theorem total_cons (x : α) (xs : List α) : total size (x :: xs) = size x + total size xs :=
  List.sum_cons

@[simp] theorem total_append (xs ys : List α) :
    total size (xs ++ ys) = total size xs + total size ys := by
  simp only [total, List.map_append, List.sum_append]

/-- `w` is the longest suffix of `xs` of total size at most `cap`. -/
structure IsWindow (cap : ℕ) (xs w : List α) : Prop where
  suffix : w <:+ xs
  fits : total size w ≤ cap
  longest : ∀ v, v <:+ xs → total size v ≤ cap → v <:+ w

/-- Entries are dropped from the front until the rest fits. -/
def trim (cap : ℕ) : List α → List α
  | [] => []
  | x :: xs => if total size (x :: xs) ≤ cap then x :: xs else trim cap xs

variable {size} {cap : ℕ}

theorem trim_of_fits {xs : List α} (hfits : total size xs ≤ cap) : trim size cap xs = xs := by
  cases xs with
  | nil => rfl
  | cons x xs => exact if_pos hfits

theorem trim_cons_of_lt {x : α} {xs : List α} (hlt : cap < total size (x :: xs)) :
    trim size cap (x :: xs) = trim size cap xs :=
  if_neg (Nat.not_le.mpr hlt)

/-- What trimming keeps is the window. -/
theorem isWindow_trim (xs : List α) : IsWindow size cap xs (trim size cap xs) := by
  induction xs with
  | nil => exact ⟨List.suffix_refl _, Nat.zero_le _, fun v hv _ ↦ hv⟩
  | cons x xs ih =>
    by_cases hfits : total size (x :: xs) ≤ cap
    · rw [trim_of_fits hfits]
      exact ⟨List.suffix_refl _, hfits, fun v hv _ ↦ hv⟩
    · rw [trim_cons_of_lt (Nat.not_le.mp hfits)]
      refine ⟨ih.suffix.trans (List.suffix_cons x xs), ih.fits, ?_⟩
      intro v hv hvfits
      obtain heq | htail := List.suffix_cons_iff.mp hv
      · rw [heq] at hvfits
        exact absurd hvfits hfits
      · exact ih.longest v htail hvfits

/-- What does not fit is cut behind the last entry that has no room. -/
theorem exists_append_trim {xs : List α} (hlt : cap < total size xs) :
    ∃ pre x, xs = pre ++ x :: trim size cap xs ∧ cap < total size (x :: trim size cap xs) := by
  induction xs with
  | nil => exact absurd hlt (Nat.not_lt_zero cap)
  | cons x xs ih =>
    rw [trim_cons_of_lt hlt]
    by_cases hfits : total size xs ≤ cap
    · rw [trim_of_fits hfits]
      exact ⟨[], x, rfl, hlt⟩
    · obtain ⟨pre, y, heq, hy⟩ := ih (Nat.not_le.mp hfits)
      exact ⟨x :: pre, y, congrArg (x :: ·) heq, hy⟩

/-- There is only one window. -/
theorem IsWindow.eq_trim {xs w : List α} (hw : IsWindow size cap xs w) :
    w = trim size cap xs := by
  have htrim : IsWindow size cap xs (trim size cap xs) := isWindow_trim xs
  have hle := htrim.longest w hw.suffix hw.fits
  have hge := hw.longest _ htrim.suffix htrim.fits
  exact hle.eq_of_length_le hge.length_le

/-- Appending an entry trims the window to the room the entry leaves. -/
theorem trim_snoc (xs : List α) (x : α) (hx : size x ≤ cap) :
    trim size cap (xs ++ [x]) = trim size (cap - size x) (trim size cap xs) ++ [x] := by
  have hold : IsWindow size cap xs (trim size cap xs) := isWindow_trim xs
  have hnew : IsWindow size (cap - size x) (trim size cap xs)
      (trim size (cap - size x) (trim size cap xs)) := isWindow_trim _
  symm
  apply IsWindow.eq_trim
  constructor
  · exact List.suffix_append_self_iff.mpr (hnew.suffix.trans hold.suffix)
  · have hfits := hnew.fits
    rw [total_append, total_cons, total_nil]
    omega
  · intro v hv hvfits
    obtain rfl | ⟨v', rfl, hv'⟩ := List.suffix_concat_iff.mp hv
    · exact List.nil_suffix
    · rw [total_append, total_cons, total_nil] at hvfits
      apply List.suffix_append_self_iff.mpr
      apply hnew.longest v' _ (by omega)
      exact hold.longest v' hv' (by omega)

end NoOsKernel.Lib.Window
