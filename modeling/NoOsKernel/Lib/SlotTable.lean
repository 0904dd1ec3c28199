import Mathlib.Logic.Function.Basic
import Mathlib.Tactic.Common

/-!
# Slot tables

A partial map kept in an array of slots: each slot is free or holds a key with its value, a key is
looked up by a linear search, a new key goes into any free slot and a key is removed by freeing its
slot. As long as no key occupies two slots (`SlotsDistinct`), filling a free slot and freeing a used
one are the two updates of the map.
-/

set_option autoImplicit false
set_option relaxedAutoImplicit false

namespace NoOsKernel.Lib

variable {K V : Type*} [DecidableEq K]

/-- The value of a slot that holds the key. -/
def slotValue (k : K) : Option (K × V) → Option V
  | none => none
  | some (k', v) => if k' = k then some v else none

/-- The value in the first of the slots `0 … n - 1` that holds the key. -/
def slotLookup (slot : ℕ → Option (K × V)) (n : ℕ) (k : K) : Option V :=
  (List.range n).findSome? fun e ↦ slotValue k (slot e)

/-- No key occupies two of the slots `0 … n - 1`. -/
def SlotsDistinct (slot : ℕ → Option (K × V)) (n : ℕ) : Prop :=
  ∀ e < n, ∀ e' < n, ∀ k v v', slot e = some (k, v) → slot e' = some (k, v') → e = e'

theorem slotValue_eq_some {k : K} {v : V} {x : Option (K × V)} :
    slotValue k x = some v ↔ x = some (k, v) := by
  rcases x with - | ⟨k', v'⟩
  · simp [slotValue]
  · rw [slotValue]
    split_ifs with hkey
    · simp [hkey]
    · simp [hkey]

variable {slot slot' : ℕ → Option (K × V)} {n : ℕ}

theorem slotLookup_eq_some (hdistinct : SlotsDistinct slot n) {k : K} {v : V} :
    slotLookup slot n k = some v ↔ ∃ e < n, slot e = some (k, v) := by
  constructor
  · intro hfound
    obtain ⟨e, he, hval⟩ := List.exists_of_findSome?_eq_some hfound
    exact ⟨e, List.mem_range.mp he, slotValue_eq_some.mp hval⟩
  · rintro ⟨e, he, hslot⟩
    rcases hfound : slotLookup slot n k with - | w
    · have hnone := List.findSome?_eq_none_iff.mp hfound e (List.mem_range.mpr he)
      rw [slotValue_eq_some.mpr hslot] at hnone
      cases hnone
    · -- the slot the search stops at holds the same key, so it is the same slot
      obtain ⟨e', he', hval⟩ := List.exists_of_findSome?_eq_some hfound
      have hslot' := slotValue_eq_some.mp hval
      have hsame := hdistinct e he e' (List.mem_range.mp he') k v w hslot hslot'
      rw [← hsame, hslot, Option.some.injEq, Prod.mk.injEq] at hslot'
      rw [hslot'.2]

theorem slotLookup_eq_none (hdistinct : SlotsDistinct slot n) {k : K} :
    slotLookup slot n k = none ↔ ∀ e < n, ∀ v, slot e ≠ some (k, v) := by
  constructor
  · intro hnone e he v hslot
    rw [(slotLookup_eq_some hdistinct).mpr ⟨e, he, hslot⟩] at hnone
    cases hnone
  · intro hfree
    by_contra hne
    obtain ⟨v, hv⟩ := Option.ne_none_iff_exists'.mp hne
    obtain ⟨e, he, hslot⟩ := (slotLookup_eq_some hdistinct).mp hv
    exact hfree e he v hslot

/-- Two tables with the same maps. -/
theorem slotLookup_ext (hdistinct : SlotsDistinct slot n) {M : K → Option V}
    (h : ∀ k v, M k = some v ↔ ∃ e < n, slot e = some (k, v)) : slotLookup slot n = M := by
  ext k v
  rw [slotLookup_eq_some hdistinct, h]

section Update

variable {e₀ : ℕ} {k : K} {v : V}

/-- Filling a free slot with a key that has none adds the key to the map. -/
theorem slotLookup_fill (hdistinct : SlotsDistinct slot n) (he₀ : e₀ < n) (hfree : slot e₀ = none)
    (hnew : slotLookup slot n k = none) (hslot : slot' e₀ = some (k, v))
    (hothers : ∀ e < n, e ≠ e₀ → slot' e = slot e) :
    SlotsDistinct slot' n ∧
      slotLookup slot' n = Function.update (slotLookup slot n) k (some v) := by
  have hnokey := (slotLookup_eq_none hdistinct).mp hnew
  have hdistinct' : SlotsDistinct slot' n := by
    intro e he e' he' k' w w' hw hw'
    by_cases heq : e = e₀ <;> by_cases heq' : e' = e₀
    · rw [heq, heq']
    · rw [heq, hslot, Option.some.injEq, Prod.mk.injEq] at hw
      rw [hothers e' he' heq', ← hw.1] at hw'
      exact absurd hw' (hnokey e' he' w')
    · rw [heq', hslot, Option.some.injEq, Prod.mk.injEq] at hw'
      rw [hothers e he heq, ← hw'.1] at hw
      exact absurd hw (hnokey e he w)
    · rw [hothers e he heq] at hw
      rw [hothers e' he' heq'] at hw'
      exact hdistinct e he e' he' k' w w' hw hw'
  refine ⟨hdistinct', slotLookup_ext hdistinct' fun k' w ↦ ?_⟩
  by_cases hkey : k' = k
  · rw [hkey, Function.update_self, Option.some.injEq]
    constructor
    · rintro rfl
      exact ⟨e₀, he₀, hslot⟩
    · rintro ⟨e, he, hw⟩
      rw [hdistinct' e he e₀ he₀ k w v hw hslot, hslot, Option.some.injEq, Prod.mk.injEq] at hw
      exact hw.2
  · rw [Function.update_of_ne hkey, slotLookup_eq_some hdistinct]
    constructor
    · rintro ⟨e, he, hw⟩
      have hne : e ≠ e₀ := by
        rintro rfl
        rw [hfree] at hw
        cases hw
      exact ⟨e, he, (hothers e he hne).trans hw⟩
    · rintro ⟨e, he, hw⟩
      have hne : e ≠ e₀ := by
        rintro rfl
        rw [hslot, Option.some.injEq, Prod.mk.injEq] at hw
        exact hkey hw.1.symm
      exact ⟨e, he, (hothers e he hne).symm.trans hw⟩

/-- Freeing the slot of a key removes the key from the map. -/
theorem slotLookup_clear (hdistinct : SlotsDistinct slot n) (he₀ : e₀ < n)
    (hused : slot e₀ = some (k, v)) (hslot : slot' e₀ = none)
    (hothers : ∀ e < n, e ≠ e₀ → slot' e = slot e) :
    SlotsDistinct slot' n ∧ slotLookup slot' n = Function.update (slotLookup slot n) k none := by
  have hold : ∀ e < n, ∀ kw, slot' e = some kw → e ≠ e₀ ∧ slot e = some kw := by
    intro e he kw hw
    have hne : e ≠ e₀ := by
      rintro rfl
      rw [hslot] at hw
      cases hw
    exact ⟨hne, (hothers e he hne).symm.trans hw⟩
  have hdistinct' : SlotsDistinct slot' n := fun e he e' he' k' w w' hw hw' ↦
    hdistinct e he e' he' k' w w' (hold e he _ hw).2 (hold e' he' _ hw').2
  refine ⟨hdistinct', slotLookup_ext hdistinct' fun k' w ↦ ?_⟩
  by_cases hkey : k' = k
  · rw [hkey, Function.update_self]
    refine ⟨nofun, ?_⟩
    rintro ⟨e, he, hw⟩
    obtain ⟨hne, hw⟩ := hold e he _ hw
    exact absurd (hdistinct e he e₀ he₀ k w v hw hused) hne
  · rw [Function.update_of_ne hkey, slotLookup_eq_some hdistinct]
    constructor
    · rintro ⟨e, he, hw⟩
      have hne : e ≠ e₀ := by
        rintro rfl
        rw [hused, Option.some.injEq, Prod.mk.injEq] at hw
        exact hkey hw.1.symm
      exact ⟨e, he, (hothers e he hne).trans hw⟩
    · rintro ⟨e, he, hw⟩
      exact ⟨e, he, (hold e he _ hw).2⟩

end Update

end NoOsKernel.Lib
