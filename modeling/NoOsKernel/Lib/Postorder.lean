import NoOsKernel.Lib.Radix
import Mathlib.Data.List.Nodup
import Mathlib.Data.List.Range

/-!
# Sweeping a radix tree

The order in which a nested walk leaves the tables of a radix tree: a table after everything below
it (`postorder`). The frames found on the way (`swept`) are those at the end of the paths with small
indices, each as often as its path, that is once when the paths are independent.
-/

set_option autoImplicit false
set_option relaxedAutoImplicit false

namespace NoOsKernel.Lib.Radix

variable {α : Type*}

/-- The paths that go on from a path for a number of levels, each after those that go on from it. -/
def postorder (width : ℕ) : ℕ → List ℕ → List (List ℕ)
  | 0, p => [p]
  | levels + 1, p =>
    ((List.range width).flatMap fun i ↦ postorder width levels (i :: p)) ++ [p]

/-- The frames a walk in this order finds. -/
def swept (dec : α → Option ℕ) (mem : ℕ → ℕ → α) (root : Option ℕ) (width levels : ℕ)
    (p : List ℕ) : List ℕ :=
  (postorder width levels p).filterMap (node dec mem root)

variable {width levels : ℕ} {p q : List ℕ}

theorem mem_postorder :
    q ∈ postorder width levels p ↔ ∃ r, q = r ++ p ∧ r.length ≤ levels ∧ ∀ i ∈ r, i < width := by
  induction levels generalizing p with
  | zero =>
    rw [postorder, List.mem_singleton]
    constructor
    · rintro rfl
      exact ⟨[], rfl, le_refl 0, nofun⟩
    · rintro ⟨r, rfl, hlen, -⟩
      rw [List.length_eq_zero_iff.mp (Nat.le_zero.mp hlen), List.nil_append]
  | succ levels ih =>
    rw [postorder, List.mem_append, List.mem_flatMap, List.mem_singleton]
    constructor
    · rintro (⟨i, hi, hq⟩ | rfl)
      · obtain ⟨r, rfl, hlen, hsmall⟩ := ih.mp hq
        refine ⟨r ++ [i], by rw [List.append_assoc, List.singleton_append], ?_, fun j hj ↦ ?_⟩
        · rw [List.length_append, List.length_singleton]
          exact Nat.succ_le_succ hlen
        · rcases List.mem_append.mp hj with hj | hj
          · exact hsmall j hj
          · rw [List.mem_singleton.mp hj]
            exact List.mem_range.mp hi
      · exact ⟨[], rfl, Nat.zero_le _, nofun⟩
    · rintro ⟨r, rfl, hlen, hsmall⟩
      rcases List.eq_nil_or_concat r with rfl | ⟨r, i, rfl⟩
      · exact Or.inr rfl
      · rw [List.concat_eq_append, List.length_append, List.length_singleton] at hlen
        refine Or.inl ⟨i, List.mem_range.mpr (hsmall i (by simp)), ih.mpr ⟨r, by simp, ?_, ?_⟩⟩
        · exact Nat.le_of_succ_le_succ hlen
        · exact fun j hj ↦ hsmall j (by simp [hj])

/-- No path is visited twice: paths below two slots of a table differ in these slots. -/
theorem nodup_postorder (width levels : ℕ) (p : List ℕ) : (postorder width levels p).Nodup := by
  induction levels generalizing p with
  | zero => exact List.nodup_singleton p
  | succ levels ih =>
    rw [postorder, List.nodup_append]
    refine ⟨List.nodup_flatMap.mpr ⟨fun i _ ↦ ih (i :: p), ?_⟩, List.nodup_singleton p, ?_⟩
    · refine List.nodup_range.imp fun {i j} hij ↦ ?_
      intro q hi hj
      obtain ⟨r, rfl, -, -⟩ := mem_postorder.1 hi
      obtain ⟨r', hsame, -, -⟩ := mem_postorder.1 hj
      obtain ⟨-, hslots⟩ := List.append_inj' hsame rfl
      exact hij (List.cons.inj hslots).1
    · intro q hq q' hq'
      rw [List.mem_singleton.mp hq']
      rintro rfl
      obtain ⟨i, -, hq⟩ := List.mem_flatMap.mp hq
      obtain ⟨r, hlong, -, -⟩ := mem_postorder.1 hq
      have hlen := congrArg List.length hlong
      rw [List.length_append, List.length_cons] at hlen
      omega

variable {dec : α → Option ℕ} {mem : ℕ → ℕ → α} {root : Option ℕ} {f : ℕ}

/-- Below a path that leads nowhere there is nothing. -/
theorem node_append_of_none (h : node dec mem root p = none) (r : List ℕ) :
    node dec mem root (r ++ p) = none := by
  induction r with
  | nil => exact h
  | cons i r ih => rw [List.cons_append, node, ih, Option.bind_none]

theorem swept_of_none (h : node dec mem root p = none) (width levels : ℕ) :
    swept dec mem root width levels p = [] := by
  rw [swept, List.filterMap_eq_nil_iff]
  intro q hq
  obtain ⟨r, rfl, -, -⟩ := mem_postorder.1 hq
  exact node_append_of_none h r

theorem swept_zero (h : node dec mem root p = some f) (width : ℕ) :
    swept dec mem root width 0 p = [f] := by
  rw [swept, postorder, List.filterMap_cons_some h, List.filterMap_nil]

/-- A table is swept slot by slot, and then comes the table. -/
theorem swept_succ (h : node dec mem root p = some f) (width levels : ℕ) :
    swept dec mem root width (levels + 1) p =
      ((List.range width).flatMap fun i ↦ swept dec mem root width levels (i :: p)) ++ [f] := by
  rw [swept, postorder, List.filterMap_append, List.filterMap_flatMap, List.filterMap_cons_some h,
    List.filterMap_nil]
  rfl

theorem mem_swept : f ∈ swept dec mem root width levels p ↔
    ∃ r, r.length ≤ levels ∧ (∀ i ∈ r, i < width) ∧ node dec mem root (r ++ p) = some f := by
  rw [swept, List.mem_filterMap]
  constructor
  · rintro ⟨q, hq, hnode⟩
    obtain ⟨r, rfl, hlen, hsmall⟩ := mem_postorder.1 hq
    exact ⟨r, hlen, hsmall, hnode⟩
  · rintro ⟨r, hlen, hsmall, hnode⟩
    exact ⟨r ++ p, mem_postorder.2 ⟨r, rfl, hlen, hsmall⟩, hnode⟩

/-- Independent paths lead to frames that are swept once. -/
theorem nodup_swept (hinj : ∀ q q' g, q ∈ postorder width levels p → q' ∈ postorder width levels p →
      node dec mem root q = some g → node dec mem root q' = some g → q = q') :
    (swept dec mem root width levels p).Nodup := by
  rw [swept, List.Nodup, List.pairwise_filterMap]
  refine (nodup_postorder width levels p).imp_of_mem fun {q q'} hq hq' hne g hg g' hg' ↦ ?_
  rintro rfl
  exact hne (hinj q q' g hq hq' hg hg')

end NoOsKernel.Lib.Radix
