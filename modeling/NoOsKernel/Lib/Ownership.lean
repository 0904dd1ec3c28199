import Mathlib.Logic.Function.Basic
import Mathlib.Tactic.Common

/-!
# Exclusive ownership of marked resources

Owners hold at most one resource each (`own : ι → Option κ`), and an allocator marks the resources
it has given out. `Exclusive own marked` says that every held resource is marked and that no two
owners hold the same one. The rules are the moves an allocator and its clients make: taking a fresh
resource, handing several back, marking more, and giving up a claim.
-/

set_option autoImplicit false
set_option relaxedAutoImplicit false

namespace NoOsKernel.Lib

variable {ι κ : Type*}

/-- Held resources are marked, and no resource has two owners. -/
structure Exclusive (own : ι → Option κ) (marked : κ → Prop) : Prop where
  marked_of_own : ∀ i k, own i = some k → marked k
  own_inj : ∀ i j k, own i = some k → own j = some k → i = j

namespace Exclusive

variable {own own' : ι → Option κ} {marked marked' : κ → Prop}

/-- A smaller claim over more marks. -/
theorem mono (h : Exclusive own marked) (hown : ∀ i k, own' i = some k → own i = some k)
    (hmarked : ∀ k, marked k → marked' k) : Exclusive own' marked' where
  marked_of_own i k hi := hmarked k (h.marked_of_own i k (hown i k hi))
  own_inj i j k hi hj := h.own_inj i j k (hown i k hi) (hown j k hj)

/-- One owner takes a resource that was not marked. -/
theorem take (h : Exclusive own marked) {o : ι} {r : κ} (hfresh : ¬ marked r)
    (hown : ∀ i k, own' i = some k → own i = some k ∨ (i = o ∧ k = r))
    (hmarked : ∀ k, marked k → marked' k) (hr : marked' r) : Exclusive own' marked' where
  marked_of_own i k hi := by
    rcases hown i k hi with hold | ⟨-, rfl⟩
    · exact hmarked k (h.marked_of_own i k hold)
    · exact hr
  own_inj i j k hi hj := by
    rcases hown i k hi with hold | ⟨rfl, rfl⟩
    · rcases hown j k hj with hold' | ⟨-, rfl⟩
      · exact h.own_inj i j k hold hold'
      · exact absurd (h.marked_of_own i _ hold) hfresh
    · rcases hown j _ hj with hold' | ⟨rfl, -⟩
      · exact absurd (h.marked_of_own j _ hold') hfresh
      · rfl

/-- Every new claim is an old claim of some owner, and no old claim is used twice. -/
theorem reassign {ι' : Type*} {own' : ι' → Option κ} (h : Exclusive own marked) (g : ι' → ι)
    (hown : ∀ i k, own' i = some k → own (g i) = some k)
    (hg : ∀ i j k, own' i = some k → own' j = some k → g i = g j → i = j)
    (hmarked : ∀ k, marked k → marked' k) : Exclusive own' marked' where
  marked_of_own i k hi := hmarked k (h.marked_of_own (g i) k (hown i k hi))
  own_inj i j k hi hj := hg i j k hi hj (h.own_inj (g i) (g j) k (hown i k hi) (hown j k hj))

/-- Owners give their claims up, and only what they held loses its mark. -/
theorem release (h : Exclusive own marked) (gone : ι → Prop)
    (hown : ∀ i k, own' i = some k → own i = some k ∧ ¬ gone i)
    (hmarked : ∀ k, marked k → marked' k ∨ ∃ i, gone i ∧ own i = some k) :
    Exclusive own' marked' where
  marked_of_own i k hi := by
    obtain ⟨hold, hstay⟩ := hown i k hi
    rcases hmarked k (h.marked_of_own i k hold) with hk | ⟨j, hgone, hj⟩
    · exact hk
    · exact absurd (h.own_inj i j k hold hj ▸ hgone) hstay
  own_inj i j k hi hj := h.own_inj i j k (hown i k hi).1 (hown j k hj).1

end Exclusive

end NoOsKernel.Lib
