import Mathlib.Tactic.Common

/-!
# Keyed lists

A table kept as a list of entries that carry their key. `keyedPut` replaces the entry of exactly
that key or appends a new one; `keyedFind` returns the first entry whose key is similar to the one
asked for. When similarity is coarser than equality, the two go together exactly when no similar key
with another spelling comes first.
-/

set_option autoImplicit false
set_option relaxedAutoImplicit false

namespace NoOsKernel.Lib

variable {K V : Type*} [DecidableEq K]

/-- The first entry whose key is similar to `k`. -/
def keyedFind (key : V → K) (sim : K → K → Bool) (vs : List V) (k : K) : Option V :=
  vs.find? fun v ↦ sim (key v) k

/-- The entry of the same key is replaced, a new one goes to the end. -/
def keyedPut (key : V → K) (vs : List V) (v : V) : List V :=
  match vs.findIdx? fun w ↦ decide (key w = key v) with
  | some i => vs.set i v
  | none => vs ++ [v]

variable {key : V → K} {sim : K → K → Bool} {v w : V} {vs : List V} {k : K}

omit [DecidableEq K] in
theorem keyedFind_cons : keyedFind key sim (w :: vs) k =
    if sim (key w) k = true then some w else keyedFind key sim vs k := by
  rw [keyedFind, List.find?_cons]
  cases sim (key w) k <;> rfl

theorem keyedPut_cons :
    keyedPut key (w :: vs) v = if key w = key v then v :: vs else w :: keyedPut key vs v := by
  rw [keyedPut, List.findIdx?_cons]
  by_cases hkey : key w = key v
  · rw [if_pos hkey, decide_eq_true hkey]
    rfl
  · rw [if_neg hkey, decide_eq_false hkey, keyedPut]
    cases vs.findIdx? fun u ↦ decide (key u = key v) <;> rfl

theorem mem_keyedPut (v : V) (vs : List V) : v ∈ keyedPut key vs v := by
  induction vs with
  | nil => exact List.mem_singleton_self v
  | cons w vs ih =>
    rw [keyedPut_cons]
    split_ifs with hkey
    · exact List.mem_cons_self
    · exact List.mem_cons_of_mem w ih

/-- A key that is not similar to the new one finds what it found before. -/
theorem keyedFind_keyedPut_of_not (hk : sim (key v) k = false) :
    keyedFind key sim (keyedPut key vs v) k = keyedFind key sim vs k := by
  induction vs with
  | nil =>
    change keyedFind key sim [v] k = none
    rw [keyedFind_cons, hk]
    rfl
  | cons w vs ih =>
    rw [keyedPut_cons]
    split_ifs with hkey
    · rw [keyedFind_cons, keyedFind_cons, hkey, hk]
      rfl
    · rw [keyedFind_cons, keyedFind_cons, ih]

section Similar

variable (hrefl : ∀ a, sim a a = true)
  (hcongr : ∀ a b c, sim a b = true → (sim c a = sim c b))

include hcongr in
/-- Where no other spelling comes first, every similar key finds the new entry. -/
theorem keyedFind_keyedPut_self (hk : sim (key v) k = true)
    (hfirst : ∀ w, keyedFind key sim vs (key v) = some w → key w = key v) :
    keyedFind key sim (keyedPut key vs v) k = some v := by
  induction vs with
  | nil =>
    change keyedFind key sim [v] k = some v
    rw [keyedFind_cons, if_pos hk]
  | cons w vs ih =>
    rw [keyedFind_cons] at hfirst
    rw [keyedPut_cons]
    split_ifs with hkey
    · rw [keyedFind_cons, if_pos hk]
    · -- an entry of another key that comes first is not similar
      have hw : sim (key w) (key v) ≠ true := by
        intro hsim
        rw [if_pos hsim] at hfirst
        exact hkey (hfirst w rfl)
      rw [if_neg hw] at hfirst
      rw [keyedFind_cons, ← hcongr _ _ _ hk, if_neg hw]
      exact ih hfirst

include hrefl in
/-- An entry of another spelling that comes first is still found. -/
theorem keyedFind_keyedPut_shadowed (hfound : keyedFind key sim vs (key v) = some w)
    (hkey : key w ≠ key v) : keyedFind key sim (keyedPut key vs v) (key v) = some w := by
  induction vs with
  | nil => cases hfound
  | cons u vs ih =>
    rw [keyedFind_cons] at hfound
    rw [keyedPut_cons]
    by_cases hu : sim (key u) (key v) = true
    · rw [if_pos hu] at hfound
      obtain rfl := Option.some.inj hfound
      rw [if_neg hkey, keyedFind_cons, if_pos hu]
    · rw [if_neg hu] at hfound
      have hne : key u ≠ key v := by
        intro heq
        rw [heq] at hu
        exact hu (hrefl (key v))
      rw [if_neg hne, keyedFind_cons, if_neg hu]
      exact ih hfound

end Similar

end NoOsKernel.Lib
