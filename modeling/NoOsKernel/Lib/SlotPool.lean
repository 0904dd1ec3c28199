import NoOsKernel.Lib.Ownership

/-!
# Pools of slots

Owners keep a slot each of a shared store, and an allocator marks the slots it has given out. In a
`Pool` the marked slots are exactly the held ones, no slot is held twice, and a held slot has the
contents its owner put there. The rules are the two moves of its clients: an owner without a slot
fills a fresh one, and owners give theirs back.

`snapshot` says what has been saved after such moves: an owner that has taken a slot saved what was
current before.
-/

set_option autoImplicit false
set_option relaxedAutoImplicit false

namespace NoOsKernel.Lib

variable {ι κ α : Type*}

/-- Slots are marked exactly while they are held, by one owner, and hold what it has saved. -/
structure Pool (own : ι → Option κ) (marked : κ → Prop) (store : κ → α) (saved : ι → α) : Prop where
  excl : Exclusive own marked
  tight : ∀ k, marked k → ∃ i, own i = some k
  stored : ∀ i k, own i = some k → store k = saved i

namespace Pool

variable {own own' : ι → Option κ} {marked marked' : κ → Prop} {store : κ → α} {saved : ι → α}

/-- A slot is marked when somebody holds it. -/
theorem marked_iff (h : Pool own marked store saved) (k : κ) : marked k ↔ ∃ i, own i = some k := by
  constructor
  · exact h.tight k
  · rintro ⟨i, hi⟩
    exact h.excl.marked_of_own i k hi

/-- An owner without a slot takes a fresh one and fills it. -/
theorem put [DecidableEq ι] [DecidableEq κ] (h : Pool own marked store saved) {i : ι} {k : κ}
    (x : α) (hi : own i = none) (hk : ¬ marked k) (hmarked : ∀ l, marked' l ↔ marked l ∨ l = k) :
    Pool (Function.update own i (some k)) marked' (Function.update store k x)
      (Function.update saved i x) where
  excl := by
    refine h.excl.take (o := i) (r := k) hk (fun j l hj ↦ ?_) (fun l hl ↦ (hmarked l).mpr (Or.inl hl))
      ((hmarked k).mpr (Or.inr rfl))
    by_cases hji : j = i
    · rw [hji, Function.update_self, Option.some.injEq] at hj
      exact Or.inr ⟨hji, hj.symm⟩
    · rw [Function.update_of_ne hji] at hj
      exact Or.inl hj
  tight l hl := by
    rcases (hmarked l).mp hl with hold | rfl
    · obtain ⟨j, hj⟩ := h.tight l hold
      have hji : j ≠ i := by
        rintro rfl
        rw [hi] at hj
        cases hj
      exact ⟨j, by rwa [Function.update_of_ne hji]⟩
    · exact ⟨i, Function.update_self ..⟩
  stored j l hj := by
    by_cases hji : j = i
    · rw [hji, Function.update_self, Option.some.injEq] at hj
      rw [hji, ← hj, Function.update_self, Function.update_self]
    · rw [Function.update_of_ne hji] at hj
      have hlk : l ≠ k := by
        rintro rfl
        exact hk (h.excl.marked_of_own j l hj)
      rw [Function.update_of_ne hlk, Function.update_of_ne hji]
      exact h.stored j l hj

/-- Owners give their slots back. -/
theorem drop (h : Pool own marked store saved) (gone : ι → Prop)
    (hown : ∀ i k, own' i = some k ↔ own i = some k ∧ ¬ gone i)
    (hmarked : ∀ k, marked' k ↔ marked k ∧ ∀ i, own i = some k → ¬ gone i) :
    Pool own' marked' store saved where
  excl := by
    refine ⟨fun i k hi ↦ ?_, fun i j k hi hj ↦ ?_⟩
    · obtain ⟨hold, hstay⟩ := (hown i k).mp hi
      refine (hmarked k).mpr ⟨h.excl.marked_of_own i k hold, fun j hj ↦ ?_⟩
      rwa [h.excl.own_inj j i k hj hold]
    · exact h.excl.own_inj i j k ((hown i k).mp hi).1 ((hown j k).mp hj).1
  tight k hk := by
    obtain ⟨hold, hstay⟩ := (hmarked k).mp hk
    obtain ⟨i, hi⟩ := h.tight k hold
    exact ⟨i, (hown i k).mpr ⟨hi, hstay i hi⟩⟩
  stored i k hi := h.stored i k ((hown i k).mp hi).1

end Pool

/-! ### What has been saved -/

section Snapshot

variable {own own' own'' : ι → Option κ} {current current' saved : ι → α}

/-- The owners that have taken a slot saved what was current. -/
def snapshot (own own' : ι → Option κ) (current saved : ι → α) : ι → α :=
  fun i ↦ if own i = none ∧ own' i ≠ none then current i else saved i

theorem snapshot_eq_saved (h : ∀ i, own' i ≠ none → own i ≠ none) :
    snapshot own own' current saved = saved := by
  funext i
  exact if_neg fun hnew ↦ h i hnew.2 hnew.1

theorem snapshot_update [DecidableEq ι] {i : ι} {k : κ} (hi : own i = none) :
    snapshot own (Function.update own i (some k)) current saved =
      Function.update saved i (current i) := by
  funext j
  rw [snapshot]
  by_cases hj : j = i
  · rw [hj, Function.update_self, Function.update_self]
    exact if_pos ⟨hi, nofun⟩
  · rw [Function.update_of_ne hj, Function.update_of_ne hj]
    exact if_neg fun hnew ↦ hnew.2 hnew.1

/-- Slots taken in two rounds, where owners without a slot keep what is current. -/
theorem snapshot_trans (hgrow : ∀ i, own i ≠ none → own' i ≠ none)
    (hgrow' : ∀ i, own' i ≠ none → own'' i ≠ none)
    (hkeep : ∀ i, own' i = none → own'' i ≠ none → current' i = current i) :
    snapshot own' own'' current' (snapshot own own' current saved) =
      snapshot own own'' current saved := by
  funext i
  simp only [snapshot]
  by_cases hmid : own' i = none
  · have hfirst : own i = none := by
      by_contra hheld
      exact hgrow i hheld hmid
    by_cases hlast : own'' i = none
    · simp only [hmid, hlast, ne_eq, not_true_eq_false, and_false, if_false]
    · rw [if_pos ⟨hmid, hlast⟩, if_pos ⟨hfirst, hlast⟩, hkeep i hmid hlast]
  · rw [if_neg fun hnew ↦ hmid hnew.1]
    simp only [hmid, hgrow' i hmid, ne_eq, not_false_eq_true]

end Snapshot

end NoOsKernel.Lib
