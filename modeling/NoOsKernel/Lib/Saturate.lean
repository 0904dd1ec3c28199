import Mathlib.Algebra.BigOperators.Group.Finset.Basic
import Mathlib.Algebra.Order.BigOperators.Group.Finset
import Mathlib.Tactic.Common

/-!
# Saturating counters

Counters that count up to a cap, and the number of those that have reached it. After a stream a
counter has what it had before and one more for every time it was named, cut off at the cap
(`val_foldl`); a stream in which every counter is far from the cap takes few of them there
(`full_mul_le`).
-/

set_option autoImplicit false
set_option relaxedAutoImplicit false

namespace NoOsKernel.Lib

/-- The counters, and how many of them have reached the cap so far. -/
structure Counters (ι : Type*) where
  val : ι → ℕ
  full : ℕ

namespace Counters

variable {ι : Type*} [DecidableEq ι] (cap : ℕ)

/-- One more for the counter `i`. -/
def bump (s : Counters ι) (i : ι) : Counters ι :=
  if s.val i < cap then
    ⟨Function.update s.val i (s.val i + 1), if s.val i + 1 = cap then s.full + 1 else s.full⟩
  else s

/-- The counters that a stream takes to the cap. -/
def reached (v : ι → ℕ) (l : List ι) : Finset ι :=
  l.toFinset.filter fun i ↦ v i < cap ∧ cap ≤ v i + l.count i

variable {cap} {v : ι → ℕ} {l : List ι} {i : ι}

theorem mem_reached : i ∈ reached cap v l ↔ v i < cap ∧ cap ≤ v i + l.count i := by
  rw [reached, Finset.mem_filter, List.mem_toFinset, and_iff_right_iff_imp]
  rintro ⟨hlow, hhigh⟩
  exact List.count_pos_iff.mp (by omega)

theorem val_foldl (hv : v i ≤ cap) (f : ℕ) :
    (l.foldl (bump cap) ⟨v, f⟩).val i = min cap (v i + l.count i) := by
  induction l generalizing v f with
  | nil =>
    rw [List.count_nil, Nat.add_zero, Nat.min_eq_right hv]
    rfl
  | cons x l ih =>
    rw [List.foldl_cons, bump]
    dsimp only
    by_cases hlt : v x < cap
    · rw [if_pos hlt]
      obtain rfl | hne := eq_or_ne x i
      · rw [ih (by rw [Function.update_self]; exact hlt), List.count_cons_self, Function.update_self]
        omega
      · rw [ih (by rwa [Function.update_of_ne hne.symm]), List.count_cons_of_ne hne,
          Function.update_of_ne hne.symm]
    · rw [if_neg hlt, ih hv]
      obtain rfl | hne := eq_or_ne x i
      · rw [List.count_cons_self]
        omega
      · rw [List.count_cons_of_ne hne]

/-- One more in front of a stream, for a counter below the cap. -/
theorem reached_cons {x : ι} (hlt : v x < cap) : reached cap v (x :: l) =
    if v x + 1 = cap then insert x (reached cap (Function.update v x (v x + 1)) l)
    else reached cap (Function.update v x (v x + 1)) l := by
  ext i
  obtain rfl | hne := eq_or_ne i x
  · split_ifs with hcap
    · rw [Finset.mem_insert, mem_reached, List.count_cons_self]
      exact iff_of_true ⟨hlt, by omega⟩ (Or.inl rfl)
    · rw [mem_reached, mem_reached, List.count_cons_self, Function.update_self]
      omega
  · have hsame : i ∈ reached cap v (x :: l) ↔
        i ∈ reached cap (Function.update v x (v x + 1)) l := by
      rw [mem_reached, mem_reached, List.count_cons_of_ne hne.symm, Function.update_of_ne hne]
    split_ifs
    · rw [Finset.mem_insert, hsame, or_iff_right hne]
    · exact hsame

theorem reached_cons_of_ge {x : ι} (hge : cap ≤ v x) : reached cap v (x :: l) = reached cap v l := by
  ext i
  obtain rfl | hne := eq_or_ne i x
  · rw [mem_reached, mem_reached]
    omega
  · rw [mem_reached, mem_reached, List.count_cons_of_ne hne.symm]

/-- What has been counted is the number of the counters that were taken to the cap. -/
theorem full_foldl (f : ℕ) : (l.foldl (bump cap) ⟨v, f⟩).full = f + (reached cap v l).card := by
  induction l generalizing v f with
  | nil => rfl
  | cons x l ih =>
    rw [List.foldl_cons, bump]
    dsimp only
    split_ifs with hlt hcap
    · have hnot : x ∉ reached cap (Function.update v x (v x + 1)) l := by
        rw [mem_reached, Function.update_self]
        omega
      rw [ih, reached_cons hlt, if_pos hcap, Finset.card_insert_of_notMem hnot]
      omega
    · rw [ih, reached_cons hlt, if_neg hcap]
    · rw [ih, reached_cons_of_ge (Nat.le_of_not_lt hlt)]

/-- Where every counter is `d` away from the cap, each one that is taken there costs `d` entries. -/
theorem full_mul_le {d : ℕ} (hv : ∀ i, v i + d ≤ cap) :
    (reached cap v l).card * d ≤ l.length := by
  have hcounts : (reached cap v l).card * d ≤ ∑ i ∈ reached cap v l, l.count i := by
    refine Finset.card_nsmul_le_sum _ _ _ fun i hi ↦ ?_
    have hreached := (mem_reached.1 hi).2
    have haway := hv i
    omega
  have hall : ∑ i ∈ reached cap v l, l.count i ≤ ∑ i ∈ l.toFinset, l.count i :=
    Finset.sum_le_sum_of_subset (Finset.filter_subset _ _)
  rw [List.sum_toFinset_count_eq_length] at hall
  exact hcounts.trans hall

end Counters

end NoOsKernel.Lib
