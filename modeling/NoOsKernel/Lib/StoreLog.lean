import Mathlib

/-!
# Logs of stores

A log lists stores in order, each with its address and where the value came from. `lastAt log k` is
the origin of the last store at `k`, the one that decides what is there in the end. Logs are put
together by `++` and by counting loops, and `lastAt` follows.
-/

set_option autoImplicit false
set_option relaxedAutoImplicit false

namespace NoOsKernel.Lib

variable {α : Type}

/-- The origin of the last store at `k`. -/
def lastAt : List (ℕ × α) → ℕ → Option α
  | [], _ => none
  | e :: es, k => (lastAt es k).or (if e.1 = k then some e.2 else none)

variable {es fs : List (ℕ × α)} {k : ℕ} {a : α}

theorem lastAt_cons (e : ℕ × α) (es : List (ℕ × α)) (k : ℕ) :
    lastAt (e :: es) k = (lastAt es k).or (if e.1 = k then some e.2 else none) :=
  rfl

theorem lastAt_append (es fs : List (ℕ × α)) (k : ℕ) :
    lastAt (es ++ fs) k = (lastAt fs k).or (lastAt es k) := by
  induction es with
  | nil => exact (Option.or_none).symm
  | cons e es ih => rw [List.cons_append, lastAt_cons, ih, lastAt_cons, Option.or_assoc]

theorem lastAt_eq_none_iff : lastAt es k = none ↔ ∀ e ∈ es, e.1 ≠ k := by
  induction es with
  | nil => exact iff_of_true rfl (List.forall_mem_nil _)
  | cons e es ih =>
    rw [lastAt_cons, Option.or_eq_none_iff, ih, List.forall_mem_cons, and_comm]
    refine and_congr_left fun _ ↦ ?_
    by_cases hk : e.1 = k
    · rw [if_pos hk]
      exact iff_of_false (Option.some_ne_none _) fun hne ↦ hne hk
    · rw [if_neg hk]
      exact iff_of_true rfl hk

theorem mem_of_lastAt (h : lastAt es k = some a) : (k, a) ∈ es := by
  induction es with
  | nil => exact absurd h.symm (Option.some_ne_none a)
  | cons e es ih =>
    rw [lastAt_cons, Option.or_eq_some_iff] at h
    obtain hlater | ⟨-, hhere⟩ := h
    · exact List.mem_cons_of_mem e (ih hlater)
    · obtain ⟨hk, ha⟩ := Option.ite_none_right_eq_some.mp hhere
      rw [← hk, ← Option.some.inj ha]
      exact List.mem_cons_self

/-- Where all stores at an address have one origin, so has the last. -/
theorem lastAt_eq_some (hmem : (k, a) ∈ es) (hall : ∀ e ∈ es, e.1 = k → e.2 = a) :
    lastAt es k = some a := by
  cases hlast : lastAt es k with
  | none => exact absurd rfl (lastAt_eq_none_iff.1 hlast _ hmem)
  | some b => exact congrArg some (hall _ (mem_of_lastAt hlast) rfl)

/-- Stores elsewhere in front do not matter. -/
theorem lastAt_append_of_none (h : lastAt fs k = none) : lastAt (es ++ fs) k = lastAt es k := by
  rw [lastAt_append, h, Option.none_or]

/-- In a counting loop only the round that stores at an address matters for it. -/
theorem lastAt_flatMap {f : ℕ → List (ℕ × α)} {n j : ℕ} (hj : j < n)
    (helse : ∀ i < n, i ≠ j → lastAt (f i) k = none) :
    lastAt ((List.range n).flatMap f) k = lastAt (f j) k := by
  induction n with
  | zero => exact absurd hj (Nat.not_lt_zero j)
  | succ n ih =>
    rw [List.range_succ, List.flatMap_append, List.flatMap_singleton, lastAt_append]
    by_cases hlast : j = n
    · have hnone : lastAt ((List.range n).flatMap f) k = none := by
        rw [lastAt_eq_none_iff]
        intro e he
        obtain ⟨i, hi, hmem⟩ := List.mem_flatMap.mp he
        rw [List.mem_range] at hi
        exact lastAt_eq_none_iff.1 (helse i (by omega) (by omega)) e hmem
      rw [hnone, Option.or_none, hlast]
    · rw [helse n (Nat.lt_succ_self n) fun h ↦ hlast h.symm, Option.none_or]
      exact ih (by omega) fun i hi ↦ helse i (by omega)

end NoOsKernel.Lib
