import Mathlib.Algebra.BigOperators.Group.List.Basic
import Mathlib.Data.List.Nodup
import Mathlib.Data.List.Perm.Basic
import NoOsKernel.Mm.Swap

/-!
# The swapped pages of a task

The live entries of `swap_map` as a partial map from pages to slots: a new entry goes to the end, and
the last one moves into the place of one that is removed. As long as no page has two entries the
order does not matter (`slotOf_eq_some`).
-/

set_option autoImplicit false
set_option relaxedAutoImplicit false

namespace NoOsKernel.Mm

open Lib

/-- The slot of a page. -/
def slotOf (entries : List SwapEnt) (key : ℕ) : Option ℕ :=
  (entries.find? fun e ↦ e.vkey == key).map SwapEnt.slot

/-- No page has two entries. -/
def KeysDistinct (entries : List SwapEnt) : Prop := (entries.map SwapEnt.vkey).Nodup

/-- `swap_slots_used`. -/
def swapSlotsUsed (s : Swap) : ℕ :=
  if s.active = false then 0 else (List.range s.pages).countP fun i ↦ bitGet s.slots i

/-- The slots of all live entries, task by task. -/
def allSlots (k : Kernel) : List ℕ :=
  (List.range taskMax).flatMap fun i ↦ (k.tasks i).swapMap.map SwapEnt.slot

variable {entries : List SwapEnt} {key slot : ℕ}

theorem slotOf_eq_none : slotOf entries key = none ↔ ∀ e ∈ entries, e.vkey ≠ key := by
  rw [slotOf, Option.map_eq_none_iff, List.find?_eq_none]
  simp only [beq_iff_eq, ne_eq]

theorem slotOf_eq_some (hkeys : KeysDistinct entries) :
    slotOf entries key = some slot ↔ ⟨key, slot⟩ ∈ entries := by
  rw [slotOf, Option.map_eq_some_iff]
  constructor
  · rintro ⟨e, hfind, rfl⟩
    have hkey := List.find?_some hfind
    rw [beq_iff_eq] at hkey
    rw [← hkey]
    exact List.mem_of_find?_eq_some hfind
  · intro hmem
    rcases hfind : entries.find? fun e ↦ e.vkey == key with - | e
    · exact absurd (beq_self_eq_true key) (List.find?_eq_none.mp hfind _ hmem)
    · have hkey := List.find?_some hfind
      rw [beq_iff_eq] at hkey
      have hsame := List.inj_on_of_nodup_map hkeys (List.mem_of_find?_eq_some hfind) hmem hkey
      exact ⟨e, hfind, by rw [hsame]⟩

/-- `ent_find` finds the entry of the page. -/
theorem entFind_spec {t : Task} {va j : ℕ} (h : entFind t va = some j) :
    ∃ hj : j < t.swapMap.length, (t.swapMap.get ⟨j, hj⟩).vkey = va / 2 ^ 12 := by
  obtain ⟨hj, hkey, -⟩ := List.findIdx?_eq_some_iff_getElem.mp h
  exact ⟨hj, by simpa using hkey⟩

theorem entFind_eq_none_iff (t : Task) (va : ℕ) :
    entFind t va = none ↔ slotOf t.swapMap (va / 2 ^ 12) = none := by
  rw [entFind, List.findIdx?_eq_none_iff, slotOf_eq_none]
  simp only [beq_eq_false_iff_ne]

theorem swapHas_eq_false_iff (t : Task) (va : ℕ) :
    swapHas t va = false ↔ slotOf t.swapMap (va / 2 ^ 12) = none := by
  rw [swapHas, ← entFind_eq_none_iff, Option.isSome_eq_false_iff, Option.isNone_iff_eq_none]

/-! ### A new entry -/

theorem KeysDistinct.append (hkeys : KeysDistinct entries) (hnone : slotOf entries key = none) :
    KeysDistinct (entries ++ [⟨key, slot⟩]) := by
  rw [KeysDistinct, List.map_append, List.nodup_append]
  refine ⟨hkeys, List.nodup_singleton _, fun v hv w hw ↦ ?_⟩
  obtain ⟨e, he, rfl⟩ := List.mem_map.mp hv
  rw [List.map_singleton, List.mem_singleton] at hw
  rw [hw]
  exact slotOf_eq_none.mp hnone e he

theorem slotOf_append (hnone : slotOf entries key = none) :
    slotOf (entries ++ [⟨key, slot⟩]) = Function.update (slotOf entries) key (some slot) := by
  funext key'
  rw [slotOf, List.find?_append, Option.map_or]
  by_cases hkey : key' = key
  · rw [hkey, Function.update_self, ← slotOf, hnone, List.find?_singleton, if_pos (by simp)]
    rfl
  · rw [Function.update_of_ne hkey, List.find?_singleton,
      if_neg (by simpa using Ne.symm hkey), Option.map_none, Option.or_none, slotOf]

/-! ### An entry removed -/

/-- Moving the last entry into the hole leaves the other entries. -/
theorem removeEnt_perm {j : ℕ} (hj : j < entries.length) :
    (entries.get ⟨j, hj⟩ :: removeEnt entries j).Perm entries := by
  have hne : entries ≠ [] := List.ne_nil_of_length_pos (Nat.zero_lt_of_lt hj)
  have hset : entries.set j (entries.getLast hne) ≠ [] := by
    rw [Ne, List.set_eq_nil_iff]
    exact hne
  have hlast : (entries.set j (entries.getLast hne)).getLast hset = entries.getLast hne := by
    simp only [List.getLast_eq_getElem, List.length_set, List.getElem_set, ite_self]
  have hremove : removeEnt entries j = (entries.set j (entries.getLast hne)).dropLast := by
    rw [removeEnt, List.getLast?_eq_some_getLast hne]
  have hsplit := List.dropLast_append_getLast hset
  rw [hlast, ← hremove] at hsplit
  have hperm : (entries.getLast hne :: removeEnt entries j).Perm
      (entries.getLast hne :: entries.eraseIdx j) := by
    refine (List.perm_append_singleton _ _).symm.trans ?_
    rw [hsplit]
    exact List.set_perm_cons_eraseIdx hj _
  exact (hperm.cons_inv.cons _).trans (List.getElem_cons_eraseIdx_perm hj)

theorem KeysDistinct.remove (hkeys : KeysDistinct entries) {j : ℕ} (hj : j < entries.length) :
    KeysDistinct (removeEnt entries j) := by
  have hall : KeysDistinct (entries.get ⟨j, hj⟩ :: removeEnt entries j) :=
    ((removeEnt_perm hj).map SwapEnt.vkey).nodup_iff.mpr hkeys
  exact (List.nodup_cons.mp hall).2

theorem slotOf_removeEnt (hkeys : KeysDistinct entries) {j : ℕ} (hj : j < entries.length)
    (key' : ℕ) : slotOf (removeEnt entries j) key' =
      if key' = (entries.get ⟨j, hj⟩).vkey then none else slotOf entries key' := by
  have hall : KeysDistinct (entries.get ⟨j, hj⟩ :: removeEnt entries j) :=
    ((removeEnt_perm hj).map SwapEnt.vkey).nodup_iff.mpr hkeys
  have hgone := (List.nodup_cons.mp hall).1
  split_ifs with hkey
  · rw [slotOf_eq_none]
    rintro e he rfl
    exact hgone (hkey ▸ List.mem_map_of_mem he)
  · apply Option.ext
    intro slot
    rw [slotOf_eq_some (hkeys.remove hj), slotOf_eq_some hkeys, ← (removeEnt_perm hj).mem_iff,
      List.mem_cons]
    refine (or_iff_right ?_).symm
    intro heq
    exact hkey (congrArg SwapEnt.vkey heq)

/-! ### All tasks -/

theorem length_allSlots (k : Kernel) :
    (allSlots k).length = ((List.range taskMax).map fun i ↦ (k.tasks i).swapMap.length).sum := by
  rw [allSlots, List.length_flatMap]
  simp only [List.length_map]

/-- Where the marked slots are those of the entries, each once, `swap_slots_used` counts the
entries. -/
theorem countP_marked_eq {k : Kernel} (hnodup : (allSlots k).Nodup)
    (hmarked : ∀ s, s ∈ allSlots k ↔ s < k.swap.pages ∧ bitGet k.swap.slots s = true) :
    ((List.range k.swap.pages).countP fun i ↦ bitGet k.swap.slots i) = (allSlots k).length := by
  rw [List.countP_eq_length_filter]
  refine List.Perm.length_eq ((List.perm_ext_iff_of_nodup ?_ hnodup).mpr fun s ↦ ?_)
  · exact List.nodup_range.filter _
  · rw [List.mem_filter, List.mem_range, hmarked]

end NoOsKernel.Mm
