import NoOsKernel.Mm.FreeFrames
import Mathlib.Data.Finset.Card
import Mathlib.Data.Finset.Dedup

/-!
# Filling an address space, frame by frame

The frames an address space takes, for any pages and any number of free frames. The tree of an
address space in which some pages are mapped has one node for every suffix of their paths
(`treeOf`), and a frame for each node is all that has been taken from the allocator, the frame in
hand apart (`Grown`). A page that is mapped adds the nodes of its path; when a table is missing and
no frame is left for it, the frame of the page stays in hand.
-/

set_option autoImplicit false
set_option relaxedAutoImplicit false

namespace NoOsKernel.Mm

open Lib Lib.Radix

/-- The nodes on the way to an address, from the top table to the page. -/
def nodesOf (va : ℕ) : Finset (List ℕ) := (pathOf va).tails.toFinset

/-- The nodes of an address space, and those on the way to further addresses. -/
def withPages (paths : Finset (List ℕ)) (vas : List ℕ) : Finset (List ℕ) :=
  vas.foldl (fun paths va ↦ paths ∪ nodesOf va) paths

/-- The nodes of an address space in which these addresses are mapped. -/
def treeOf (vas : List ℕ) : Finset (List ℕ) := withPages {[]} vas

theorem mem_nodesOf {va : ℕ} {p : List ℕ} : p ∈ nodesOf va ↔ p <:+ pathOf va := by
  rw [nodesOf, List.mem_toFinset, List.mem_tails]

theorem mem_withPages {paths : Finset (List ℕ)} {vas : List ℕ} {p : List ℕ} :
    p ∈ withPages paths vas ↔ p ∈ paths ∨ ∃ va ∈ vas, p <:+ pathOf va := by
  induction vas generalizing paths with
  | nil => simp [withPages]
  | cons va rest ih =>
    have hstep : p ∈ withPages paths (va :: rest) ↔ p ∈ withPages (paths ∪ nodesOf va) rest :=
      Iff.rfl
    rw [hstep, ih, Finset.mem_union, mem_nodesOf, or_assoc]
    simp only [List.mem_cons, exists_eq_or_imp]

theorem subset_withPages (paths : Finset (List ℕ)) (vas : List ℕ) : paths ⊆ withPages paths vas :=
  fun _ hp ↦ mem_withPages.mpr (Or.inl hp)

/-- A page is on the way to no other page. -/
theorem pathOf_mem_nodesOf {va va' : ℕ} : pathOf va ∈ nodesOf va' ↔ pathOf va = pathOf va' := by
  rw [mem_nodesOf]
  refine ⟨fun h ↦ h.eq_of_length rfl, fun h ↦ ?_⟩
  rw [h]

theorem nodesOf_eq (va : ℕ) : nodesOf va =
    insert (pathOf va) (insert (tablePath va) (insert [pdpti va, pml4i va] (insert [pml4i va]
      {[]}))) := by
  ext p
  rw [mem_nodesOf, pathOf]
  simp only [List.suffix_cons_iff, List.suffix_nil, Finset.mem_insert, Finset.mem_singleton,
    tablePath]

/-- Indices are those of the 512 entries of a table. -/
theorem lt_of_mem_pathOf {va i : ℕ} (hi : i ∈ pathOf va) : i < 512 := by
  simp only [pathOf, List.mem_cons, List.not_mem_nil, or_false, pti, pdi, pdpti, pml4i] at hi
  omega

/-! ### What has been taken -/

/-- A frame of the address space below top table `c`. -/
def InSpace (mem : ℕ → Page) (c f : ℕ) : Prop :=
  ∃ p, TreePath 4 2 p ∧ node pteFrame mem (some c) p = some f

theorem inSpace_of_isTable {mem : ℕ → Page} {c f : ℕ}
    (h : IsTable 4 2 pteFrame mem (onlyRoot c) f) : InSpace mem c f := by
  obtain ⟨t, p, hp, -, hnode⟩ := h
  by_cases ht : t = 0
  · rw [ht, onlyRoot_zero] at hnode
    exact ⟨p, hp, hnode⟩
  · rw [onlyRoot, Function.update_of_ne ht, node_none] at hnode
    exact absurd hnode nofun

section Tables

variable {mem mem' : ℕ → Page} {c : ℕ}
  (hmem : ∀ g, IsTable 4 2 pteFrame mem (onlyRoot c) g → mem' g = mem g)

include hmem

theorem node_onlyRoot_congr {p : List ℕ} (hp : TreePath 4 2 p) :
    node pteFrame mem' (some c) p = node pteFrame mem (some c) p := by
  rw [← onlyRoot_zero c, node_congr hmem hp]

/-- Writing outside the tables neither adds a frame to the address space nor takes one from it. -/
theorem inSpace_congr (f : ℕ) : InSpace mem' c f ↔ InSpace mem c f := by
  refine exists_congr fun p ↦ and_congr_right fun hp ↦ ?_
  rw [node_onlyRoot_congr hmem hp]

end Tables

/-- At most the function that took a frame holds one. -/
def inHand (hand : Option ℕ) : Holder → Option ℕ := Function.update (fun _ ↦ none) .hand hand

theorem inHand_none : inHand none = fun _ ↦ none :=
  Function.update_eq_self (f := fun _ ↦ (none : Option ℕ)) Holder.hand

/-- Since the allocator was in state `p₀`, an address space with these nodes has grown, and no frame
has been taken but for its nodes and the frame in hand. -/
structure Grown (p₀ : Pmm) (m : Machine) (c : ℕ) (hand : Option ℕ) (paths : Finset (List ℕ)) :
    Prop where
  owns : Owns m (onlyRoot c) (inHand hand)
  balanced : Balanced p₀ m.pmm
  tree : ∀ p, TreePath 4 2 p → ((node pteFrame m.mem (some c) p).isSome = true ↔ p ∈ paths)
  narrow : ∀ p ∈ paths, ∀ i ∈ p, i < 512
  marks : ∀ f, Marked m.pmm f ↔ Marked p₀ f ∨ hand = some f ∨ InSpace m.mem c f
  fresh : ∀ f, Marked p₀ f → hand ≠ some f ∧ ¬ InSpace m.mem c f
  count : freeCount m.pmm + paths.card + hand.toList.length = freeCount p₀

variable {p₀ : Pmm} {m m' : Machine} {c : ℕ} {hand : Option ℕ} {paths : Finset (List ℕ)}

theorem vmmNewAddressSpace_pmm (m : Machine) (bootPml4 : ℕ) :
    (vmmNewAddressSpace m bootPml4).2.pmm = (pmmAllocFrame m.pmm).2 := by
  rw [vmmNewAddressSpace]
  split_ifs <;> rfl

namespace Grown

/-- A frame that is taken for a node or into the hand. -/
theorem take (h : Grown p₀ m c hand paths) {v : ℕ} (hfresh : ¬ Marked m.pmm v) :
    ¬ Marked p₀ v :=
  fun hold ↦ hfresh ((h.marks v).mpr (Or.inl hold))

/-- The tree after one of its slots is written. -/
theorem inSpace_write {i v : ℕ} {p : List ℕ}
    (hpath : TreePath 4 2 (i :: p)) (hnone : node pteFrame m.mem (some c) (i :: p) = none)
    (hwrite : ∀ q, TreePath 4 2 q → node pteFrame m'.mem (some c) q =
      if q = i :: p then some v else node pteFrame m.mem (some c) q) (g : ℕ) :
    InSpace m'.mem c g ↔ InSpace m.mem c g ∨ g = v := by
  constructor
  · rintro ⟨q, hq, hnode⟩
    rw [hwrite q hq] at hnode
    split_ifs at hnode with hsame
    · exact Or.inr (Option.some.inj hnode).symm
    · exact Or.inl ⟨q, hq, hnode⟩
  · rintro (⟨q, hq, hnode⟩ | rfl)
    · refine ⟨q, hq, ?_⟩
      rw [hwrite q hq, if_neg]
      · exact hnode
      · rintro rfl
        rw [hnone] at hnode
        cases hnode
    · exact ⟨i :: p, hpath, by rw [hwrite _ hpath, if_pos rfl]⟩

theorem tree_write {i v : ℕ} {p : List ℕ} (h : Grown p₀ m c hand paths)
    (hwrite : ∀ q, TreePath 4 2 q → node pteFrame m'.mem (some c) q =
      if q = i :: p then some v else node pteFrame m.mem (some c) q) (q : List ℕ)
    (hq : TreePath 4 2 q) :
    (node pteFrame m'.mem (some c) q).isSome = true ↔ q ∈ insert (i :: p) paths := by
  rw [hwrite q hq, Finset.mem_insert]
  split_ifs with hsame
  · exact iff_of_true rfl (Or.inl hsame)
  · rw [h.tree q hq]
    exact (or_iff_right hsame).symm

/-- A fresh frame becomes a table. -/
theorem link (h : Grown p₀ m c hand paths) {i v : ℕ} {p : List ℕ} (hp : TreePath 4 2 (i :: p))
    (hi : i < 512) (hpaths : p ∈ paths) (hlinked : Linked m m' (onlyRoot c) 0 i p v)
    (hlen : p.length < 3) (hpmm : m'.pmm = (pmmAllocFrame m.pmm).2) :
    node pteFrame m'.mem (some c) (i :: p) = some v ∧
      Grown p₀ m' c hand (insert (i :: p) paths) := by
  obtain ⟨w, hw, hslot⟩ := hlinked.slot
  have hnone : node pteFrame m.mem (some c) (i :: p) = none := by
    rcases hslot.below with hdeep | ⟨hnone, -⟩
    · omega
    · rwa [onlyRoot_zero] at hnone
  have hnew : i :: p ∉ paths := by
    rw [← h.tree _ hp, hnone]
    exact Bool.false_ne_true
  have hwrite : ∀ q, TreePath 4 2 q → node pteFrame m'.mem (some c) q =
      if q = i :: p then some v else node pteFrame m.mem (some c) q := by
    intro q hq
    have hnode := node_write hslot (apart_of_exclusive h.owns.excl) (t := 0) hq
    simp only [onlyRoot_zero, true_and] at hnode
    rw [hnode, hw]
  have hspace := inSpace_write hp hnone hwrite
  refine ⟨by rw [hwrite _ hp, if_pos rfl], ⟨hlinked.pmm, ?_⟩, ?_, h.tree_write hwrite, ?_,
    fun f ↦ ?_, fun f hf ↦ ⟨(h.fresh f hf).1, ?_⟩, ?_⟩
  · exact exclusive_link hslot h.owns.excl hw (fun hin ↦ hlinked.fresh hin.2)
      (fun k hk ↦ ⟨hk.1, (hlinked.marks k).mpr (Or.inl hk.2)⟩)
      ⟨hlinked.pos, (hlinked.marks v).mpr (Or.inr rfl)⟩
  · rw [hpmm]
    exact h.balanced.trans (Balanced.alloc h.owns.pmm)
  · intro q hq
    rcases Finset.mem_insert.mp hq with rfl | hq
    · exact List.forall_mem_cons.mpr ⟨hi, h.narrow p hpaths⟩
    · exact h.narrow q hq
  · rw [hlinked.marks, h.marks, hspace, or_assoc, or_assoc]
  · rw [hspace]
    rintro (hold | rfl)
    · exact (h.fresh f hf).2 hold
    · exact h.take hlinked.fresh hf
  · have hcount := h.count
    have hone : freeCount m'.pmm + 1 = freeCount m.pmm := by
      rcases freeCount_alloc h.owns.pmm with ⟨hfail, -⟩ | ⟨-, hone⟩
      · rw [hfail] at hpmm
        have hmark := (hlinked.marks v).mpr (Or.inr rfl)
        rw [hpmm] at hmark
        exact absurd hmark hlinked.fresh
      · rwa [hpmm]
    rw [Finset.card_insert_of_notMem hnew]
    omega

/-- One level of a walk: a table is missing and there is no frame for it, or the walk gets to the
table. -/
theorem level (h : Grown p₀ m c hand paths) {f i : ℕ} {p : List ℕ} {flags : BitVec 8}
    (hflags : flags.toNat % 2 = 1) (hp : TreePath 4 2 (i :: p)) (hi : i < 512)
    (hlen : p.length < 3) (hnode : node pteFrame m.mem (some c) p = some f) :
    (nextTable m (f * frameSize) i flags = (none, m) ∧ i :: p ∉ paths ∧ freeCount m.pmm = 0) ∨
      ∃ v m', nextTable m (f * frameSize) i flags = (some (v * frameSize), m') ∧
        node pteFrame m'.mem (some c) (i :: p) = some v ∧
        Grown p₀ m' c hand (insert (i :: p) paths) := by
  have hthere := h.tree (i :: p) hp
  have hnode₀ : node pteFrame m.mem (onlyRoot c 0) p = some f := by
    rw [onlyRoot_zero]
    exact hnode
  rcases nextTable_cases h.owns.pmm (fun _ hg ↦ h.owns.marked_of_isTable hg) hflags hp hnode₀ with
    ⟨hfail, hnone⟩ | ⟨v, heq, hold⟩ | ⟨v, m', heq, hlinked⟩
  · rw [onlyRoot_zero] at hnone
    refine Or.inl ⟨hfail, ?_, ?_⟩
    · rw [← hthere, hnone]
      exact Bool.false_ne_true
    · exact ((nextTable_eq_none_iff h.owns.pmm _ _ _).mp (by rw [hfail])).2
  · rw [onlyRoot_zero] at hold
    have hin : i :: p ∈ paths := by
      rw [← hthere, hold]
      rfl
    refine Or.inr ⟨v, m, heq, hold, ?_⟩
    rw [Finset.insert_eq_of_mem hin]
    exact h
  · have hpaths : p ∈ paths := by
      rw [← h.tree p hp.tail, hnode]
      rfl
    have hpmm : m'.pmm = (pmmAllocFrame m.pmm).2 := by
      have hsnd := nextTable_pmm m (f * frameSize) i flags
      rw [heq] at hsnd
      rw [hsnd, if_neg]
      intro hpresent
      rw [if_pos hpresent] at hsnd
      have hmark := (hlinked.marks v).mpr (Or.inr rfl)
      rw [hsnd] at hmark
      exact hlinked.fresh hmark
    obtain ⟨hnew, hgrown⟩ := h.link hp hi hpaths hlinked hlen hpmm
    exact Or.inr ⟨v, m', heq, hnew, hgrown⟩

/-- The table above a node is a node. -/
theorem mem_of_cons (h : Grown p₀ m c hand paths) {i : ℕ} {p : List ℕ} (hp : TreePath 4 2 (i :: p))
    (hin : i :: p ∈ paths) : p ∈ paths := by
  rw [← h.tree _ hp, Option.isSome_iff_exists] at hin
  obtain ⟨v, hv⟩ := hin
  obtain ⟨f, hf, -⟩ := Option.bind_eq_some_iff.mp hv
  rw [← h.tree p hp.tail, hf]
  rfl

/-- The walk to an address: a table is missing and there is no frame for it, or the walk gets to the
page table. -/
theorem walk (h : Grown p₀ m c hand paths) {va : ℕ} (hva : pml4i va = 2) (flags : BitVec 8) :
    (∃ m' paths', mapWalk m (c * frameSize) va flags = (none, m') ∧ freeCount m'.pmm = 0 ∧
        Grown p₀ m' c hand paths' ∧ paths ⊆ paths' ∧ paths' ⊆ paths ∪ nodesOf va ∧
        tablePath va ∉ paths') ∨
      ∃ pt m', mapWalk m (c * frameSize) va flags = (some (pt * frameSize), m') ∧
        node pteFrame m'.mem (some c) (tablePath va) = some pt ∧
        Grown p₀ m' c hand
          (insert (tablePath va) (insert [pdpti va, pml4i va] (insert [pml4i va] paths))) := by
  have hodd := tableFlags_odd flags
  have hpath := treePath_of_pml4i hva
  have hlt : ∀ i ∈ pathOf va, i < 512 := fun i ↦ lt_of_mem_pathOf
  have hroot : node pteFrame m.mem (some c) [] = some c := rfl
  have hfirst : [pml4i va] ∈ nodesOf va := mem_nodesOf.mpr ⟨[pti va, pdi va, pdpti va], rfl⟩
  have hsecond : [pdpti va, pml4i va] ∈ nodesOf va := mem_nodesOf.mpr ⟨[pti va, pdi va], rfl⟩
  rw [mapWalk]
  rcases h.level hodd hpath.tail.tail.tail (hlt _ (by simp [pathOf])) (by simp) hroot with
    ⟨hfail, hmiss, hfull⟩ | ⟨pdpt, m₁, heq₁, hnode₁, h₁⟩
  · rw [hfail]
    refine Or.inl ⟨m, paths, rfl, hfull, h, subset_rfl, Finset.subset_union_left, fun hin ↦ ?_⟩
    exact hmiss (h.mem_of_cons hpath.tail.tail (h.mem_of_cons hpath.tail hin))
  rw [heq₁]
  rcases h₁.level hodd hpath.tail.tail (hlt _ (by simp [pathOf])) (by simp) hnode₁ with
    ⟨hfail, hmiss, hfull⟩ | ⟨pd, m₂, heq₂, hnode₂, h₂⟩
  · simp only [hfail]
    refine Or.inl ⟨m₁, _, rfl, hfull, h₁, Finset.subset_insert _ _, ?_, fun hin ↦ ?_⟩
    · exact Finset.insert_subset (Finset.mem_union_right _ hfirst) Finset.subset_union_left
    · exact hmiss (h₁.mem_of_cons hpath.tail hin)
  simp only [heq₂]
  rcases h₂.level hodd hpath.tail (hlt _ (by simp [pathOf])) (by simp) hnode₂ with
    ⟨hfail, hmiss, hfull⟩ | ⟨pt, m₃, heq₃, hnode₃, h₃⟩
  · simp only [hfail]
    refine Or.inl ⟨m₂, _, rfl, hfull, h₂, ?_, ?_, hmiss⟩
    · exact (Finset.subset_insert _ _).trans (Finset.subset_insert _ _)
    · exact Finset.insert_subset (Finset.mem_union_right _ hsecond)
        (Finset.insert_subset (Finset.mem_union_right _ hfirst) Finset.subset_union_left)
  · exact Or.inr ⟨pt, m₃, heq₃, hnode₃, h₃⟩

/-- The frame in hand becomes the page at an address that was not mapped. -/
theorem setLeaf {f pt va : ℕ} (h : Grown p₀ m c (some f) paths) (hva : pml4i va = 2)
    (hpt : node pteFrame m.mem (some c) (tablePath va) = some pt) (hnew : pathOf va ∉ paths)
    (flags : BitVec 8) :
    Grown p₀ (m.setWord (pt * frameSize) (pti va) (leafEntry (f * frameSize) flags)) c none
      (insert (pathOf va) paths) := by
  have hpath := treePath_of_pml4i hva
  have hpt₀ : node pteFrame m.mem (onlyRoot c 0) [pdi va, pdpti va, pml4i va] = some pt := by
    rw [onlyRoot_zero]
    exact hpt
  have hheld : inHand (some f) .hand = some f := Function.update_self ..
  have hframe := pteFrame_leafEntry (h.owns.lt_of_loose hheld).2 flags
  have hslot := slotWrite_setWord (w := leafEntry (f * frameSize) flags) hpath hpt₀ (Or.inl rfl)
  have hnone : node pteFrame m.mem (some c) (pathOf va) = none := by
    rw [← h.tree _ hpath] at hnew
    exact Option.not_isSome_iff_eq_none.mp hnew
  set m' := m.setWord (pt * frameSize) (pti va) (leafEntry (f * frameSize) flags) with hm'
  have hwrite : ∀ q, TreePath 4 2 q → node pteFrame m'.mem (some c) q =
      if q = pathOf va then some f else node pteFrame m.mem (some c) q := by
    intro q hq
    have hnode := node_write hslot (apart_of_exclusive h.owns.excl) (t := 0) hq
    simp only [onlyRoot_zero, true_and] at hnode
    rw [hnode, hframe]
    rfl
  have hspace := inSpace_write hpath hnone hwrite
  refine ⟨⟨h.owns.pmm, ?_⟩, h.balanced, h.tree_write hwrite, ?_, fun g ↦ ?_, fun g hg ↦ ?_, ?_⟩
  · refine exclusive_attach hslot h.owns.excl hframe hheld fun e k hk ↦ ?_
    rw [inHand_none] at hk
    cases hk
  · intro q hq
    rcases Finset.mem_insert.mp hq with rfl | hq
    · exact fun i ↦ lt_of_mem_pathOf
    · exact h.narrow q hq
  · rw [hspace, hm', Machine.setWord_pmm, h.marks, Option.some.injEq, eq_comm (a := f)]
    simp only [reduceCtorEq, false_or]
    exact or_congr_right or_comm
  · refine ⟨(Option.some_ne_none g).symm, ?_⟩
    rw [hspace]
    rintro (hold | rfl)
    · exact (h.fresh g hg).2 hold
    · exact (h.fresh g hg).1 rfl
  · have hcount := h.count
    rw [Finset.card_insert_of_notMem hnew, hm', Machine.setWord_pmm]
    simp only [Option.toList, List.length_cons, List.length_nil] at hcount ⊢
    omega

/-- A frame is fetched for a page. -/
theorem fetch {m₁ : Machine} {f : ℕ} {fill : Option Page} (h : Grown p₀ m c none paths)
    (hfetched : Fetched m m₁ f fill) (hown : Owns m₁ (onlyRoot c) (inHand (some f))) :
    Grown p₀ m₁ c (some f) paths := by
  have hmem : ∀ g, IsTable 4 2 pteFrame m.mem (onlyRoot c) g → m₁.mem g = m.mem g :=
    fun g ↦ hfetched.tables h.owns
  have hspace := inSpace_congr hmem
  have hpmm : m₁.pmm = (pmmAllocFrame m.pmm).2 := by rw [hfetched.alloc]
  have hne : f * frameSize ≠ 0 :=
    Nat.mul_ne_zero (hown.lt_of_loose (Function.update_self ..)).1 (by decide)
  have hmark : ∀ k, Marked m₁.pmm k ↔ Marked m.pmm k ∨ k = f := by
    rcases pmmAllocFrame_spec h.owns.pmm with hfail | ⟨f', p', heq, -, -, -, -, -, hmark⟩
    · rw [hfetched.alloc, Prod.mk.injEq] at hfail
      exact absurd hfail.1 hne
    · rw [hfetched.alloc, Prod.mk.injEq] at heq
      rw [heq.2, Nat.eq_of_mul_eq_mul_right (by decide : 0 < frameSize) heq.1]
      exact hmark
  refine ⟨hown, hpmm ▸ h.balanced.trans (Balanced.alloc h.owns.pmm), fun p hp ↦ ?_, h.narrow,
    fun g ↦ ?_, fun g hg ↦ ⟨?_, ?_⟩, ?_⟩
  · rw [node_onlyRoot_congr hmem hp]
    exact h.tree p hp
  · rw [hmark, h.marks, hspace, Option.some.injEq, eq_comm (a := f)]
    simp only [reduceCtorEq, false_or]
    rw [or_assoc]
    exact or_congr_right or_comm
  · rw [ne_eq, Option.some.injEq]
    rintro rfl
    exact h.take hfetched.fresh hg
  · rw [hspace]
    exact (h.fresh g hg).2
  · have hcount := h.count
    rcases freeCount_alloc h.owns.pmm with ⟨hfail, -⟩ | ⟨-, hone⟩
    · rw [hfetched.alloc, Prod.mk.injEq] at hfail
      exact absurd hfail.1 hne
    · rw [← hpmm] at hone
      simp only [Option.toList, List.length_cons, List.length_nil] at hcount ⊢
      omega

/-! ### Pages -/

/-- A fresh page is mapped: there is no frame for it; there is one for it, but not for all tables,
and it stays in hand; or the page is there. -/
theorem mapFresh (h : Grown p₀ m c none paths) {va : ℕ} (hva : pml4i va = 2)
    (hnew : pathOf va ∉ paths) (fill : Option Page) (flags : BitVec 8) :
    (Mm.mapFresh m (c * frameSize) va fill flags = .error m ∧ freeCount m.pmm = 0) ∨
      (∃ f m' paths', Mm.mapFresh m (c * frameSize) va fill flags = .ok (f * frameSize, m') ∧
        freeCount m'.pmm = 0 ∧ Grown p₀ m' c (some f) paths' ∧ paths ⊆ paths' ∧
        paths' ⊆ paths ∪ nodesOf va ∧ tablePath va ∉ paths') ∨
      ∃ f m', Mm.mapFresh m (c * frameSize) va fill flags = .ok (f * frameSize, m') ∧
        Grown p₀ m' c none (paths ∪ nodesOf va) := by
  have howns := h.owns
  rw [inHand_none] at howns
  rcases howns.mapFresh (e := .hand) rfl (c * frameSize) va fill flags with
    hfail | ⟨f, m₁, heq, hfetched, hown₁, -⟩
  · refine Or.inl ⟨hfail, (alloc_eq_zero_iff h.owns.pmm).mp ?_⟩
    rw [Mm.mapFresh] at hfail
    by_contra hne
    rw [if_neg hne] at hfail
    cases hfail
  have h₁ := h.fetch hfetched hown₁
  right
  rw [heq, vmmMap_eq_mapWalk]
  rcases h₁.walk hva flags with
    ⟨m', paths', hwalk, hfull, hgrown, hsub, hsup, hmiss⟩ | ⟨pt, m₂, hwalk, hpt, h₂⟩
  · rw [hwalk]
    exact Or.inl ⟨f, m', paths', rfl, hfull, hgrown, hsub, hsup, hmiss⟩
  · rw [hwalk]
    refine Or.inr ⟨f, _, rfl, ?_⟩
    have hroot : [] ∈ paths := by
      rw [← h.tree [] ⟨Nat.zero_le _, Or.inl rfl⟩]
      rfl
    have hleaf : pathOf va ∉
        insert (tablePath va) (insert [pdpti va, pml4i va] (insert [pml4i va] paths)) := by
      rw [Finset.mem_insert, Finset.mem_insert, Finset.mem_insert]
      rintro (hsame | hsame | hsame | hin)
      · exact absurd (congrArg List.length hsame) (by simp [pathOf, tablePath])
      · exact absurd (congrArg List.length hsame) (by simp [pathOf])
      · exact absurd (congrArg List.length hsame) (by simp [pathOf])
      · exact hnew hin
    have hsame : paths ∪ nodesOf va = insert (pathOf va)
        (insert (tablePath va) (insert [pdpti va, pml4i va] (insert [pml4i va] paths))) := by
      rw [nodesOf_eq]
      ext p
      simp only [Finset.mem_union, Finset.mem_insert, Finset.mem_singleton]
      have hnil : p = [] → p ∈ paths := fun hp ↦ hp ▸ hroot
      tauto
    rw [hsame]
    exact h₂.setLeaf hva hpt hleaf flags

/-- A new address space has a top table only. -/
theorem newSpace (hpmm : PmmOk m.pmm) (bootPml4 : ℕ) :
    (vmmNewAddressSpace m bootPml4 = (0, m) ∧ freeCount m.pmm = 0) ∨
      ∃ c m', vmmNewAddressSpace m bootPml4 = (c * frameSize, m') ∧ c ≠ 0 ∧
        Grown m.pmm m' c none {[]} := by
  have hpmm' := vmmNewAddressSpace_pmm m bootPml4
  have hzero : (vmmNewAddressSpace m bootPml4).1 = (pmmAllocFrame m.pmm).1 := by
    rw [vmmNewAddressSpace]
    split_ifs with hfail
    · exact hfail.symm
    · rfl
  rcases vmmNewAddressSpace_spec (owns_none hpmm) 0 bootPml4 with
    hfail | ⟨c, m', heq, hne, hown, -⟩
  · exact Or.inl ⟨hfail, (alloc_eq_zero_iff hpmm).mp (by rw [← hzero, hfail])⟩
  rcases vmmNewAddressSpace_cases hpmm bootPml4 with hfail | ⟨c', m'', heq', hnew⟩
  · rw [heq, Prod.mk.injEq] at hfail
    exact absurd hfail.1 (Nat.mul_ne_zero hne (by decide))
  rw [heq, Prod.mk.injEq] at heq'
  obtain ⟨hc, rfl⟩ := heq'
  obtain rfl : c = c' := Nat.eq_of_mul_eq_mul_right (by decide : 0 < frameSize) hc
  refine Or.inr ⟨c, m', heq, hne, ?_⟩
  rw [heq] at hpmm' hzero
  have htop : pteFrame (m'.mem c 2) = none := by
    rw [hnew.empty 2 (by decide)]
    exact pteFrame_zero
  have hempty : ∀ p, TreePath 4 2 p → p ≠ [] → node pteFrame m'.mem (some c) p = none :=
    fun p hp hne ↦ node_of_empty_top htop hp hne
  have hspace : ∀ g, InSpace m'.mem c g ↔ g = c := by
    intro g
    constructor
    · rintro ⟨p, hp, hnode⟩
      by_cases hnil : p = []
      · rw [hnil] at hnode
        exact (Option.some.inj hnode).symm
      · rw [hempty p hp hnil] at hnode
        cases hnode
    · rintro rfl
      exact ⟨[], ⟨Nat.zero_le _, Or.inl rfl⟩, rfl⟩
  refine ⟨by rwa [inHand_none], hpmm' ▸ Balanced.alloc hpmm, fun p hp ↦ ?_, fun p hp ↦ ?_,
    fun f ↦ ?_, fun f hf ↦ ⟨(Option.some_ne_none f).symm, ?_⟩, ?_⟩
  · rw [Finset.mem_singleton]
    by_cases hnil : p = []
    · rw [hnil]
      exact iff_of_true rfl rfl
    · rw [hempty p hp hnil]
      exact iff_of_false Bool.false_ne_true hnil
  · rw [Finset.mem_singleton.mp hp]
    exact List.forall_mem_nil _
  · rw [hnew.marks, hspace]
    simp only [reduceCtorEq, false_or]
  · rw [hspace]
    rintro rfl
    exact hnew.fresh hf
  · rcases freeCount_alloc hpmm with ⟨hfail, -⟩ | ⟨-, hone⟩
    · rw [hfail] at hzero
      exact absurd hzero (Nat.mul_ne_zero hne (by decide))
    · rw [← hpmm'] at hone
      rw [Finset.card_singleton]
      simp only [Option.toList, List.length_nil]
      omega

/-- The heap takes a run of frames: it counts as taken before. -/
theorem kmalloc (h : Grown p₀ m c none paths) (hok : PmmOk p₀) {base need : ℕ}
    (hrun : RunFree m.pmm base need) :
    RunTaken p₀ (takeRun p₀ base need) base need ∧
      Grown (takeRun p₀ base need) { m with pmm := takeRun m.pmm base need } c none paths := by
  have hclear : ∀ f, base ≤ f → f < base + need → ¬ Marked m.pmm f := by
    intro f hlo hhi hmark
    rw [Marked, hrun.2 f hlo hhi] at hmark
    exact Bool.false_ne_true hmark.2
  have hrun₀ : RunFree p₀ base need := by
    refine ⟨h.balanced.total ▸ hrun.1, fun f hlo hhi ↦ ?_⟩
    rw [← Bool.not_eq_true]
    intro hbit
    have htotal := h.balanced.total ▸ hrun.1
    exact hclear f hlo hhi ((h.marks f).mpr (Or.inl ⟨by omega, hbit⟩))
  have htaken := runTaken_takeRun h.owns.pmm hrun
  have htaken₀ := runTaken_takeRun hok hrun₀
  refine ⟨htaken₀, h.owns.mono_pmm htaken.ok fun k hk ↦ (htaken.marks k).mpr (Or.inl hk),
    ⟨?_, ?_, fun f hf ↦ ?_, ?_, ?_⟩, h.tree, h.narrow, fun f ↦ ?_,
    fun f hf ↦ ⟨(Option.some_ne_none f).symm, ?_⟩, ?_⟩
  · exact htaken.balanced.total.trans (h.balanced.total.trans htaken₀.balanced.total.symm)
  · exact htaken.balanced.length.trans (h.balanced.length.trans htaken₀.balanced.length.symm)
  · have hf₀ := htaken₀.balanced.total ▸ hf
    rw [htaken.balanced.beyond f (h.balanced.total ▸ hf₀), h.balanced.beyond f hf₀,
      htaken₀.balanced.beyond f hf₀]
  · have hcounted := h.balanced.counted
    have hcounted' := htaken.balanced.counted
    have hcounted₀ := htaken₀.balanced.counted
    simp only
    omega
  · cases need with
    | zero => exact h.balanced.small
    | succ n =>
      intro _
      rw [takeRun_succ]
      exact Nat.mod_lt _ (by decide)
  · rw [htaken.marks, htaken₀.marks, h.marks]
    tauto
  · rcases (htaken₀.marks f).mp hf with hold | ⟨hlo, hhi⟩
    · exact (h.fresh f hold).2
    · exact fun hspace ↦ hclear f hlo hhi ((h.marks f).mpr (Or.inr (Or.inr hspace)))
  · have hcount := h.count
    have hleft := htaken.left
    have hleft₀ := htaken₀.left
    simp only at hcount hleft hleft₀ ⊢
    omega

/-- Memory may change outside the tables. -/
theorem write (h : Grown p₀ m c hand paths) {mem' : ℕ → Page}
    (hmem : ∀ g, IsTable 4 2 pteFrame m.mem (onlyRoot c) g → mem' g = m.mem g) :
    Grown p₀ { m with mem := mem' } c hand paths := by
  have hspace := inSpace_congr hmem
  refine ⟨(h.owns.write hmem).1, h.balanced, fun p hp ↦ ?_, h.narrow, fun f ↦ ?_,
    fun f hf ↦ ⟨(h.fresh f hf).1, ?_⟩, h.count⟩
  · rw [node_onlyRoot_congr hmem hp]
    exact h.tree p hp
  · rw [hspace]
    exact h.marks f
  · rw [hspace]
    exact (h.fresh f hf).2

/-- The pages that are mapped are those with a node. -/
theorem translate_ne_zero_iff (h : Grown p₀ m c hand paths) {va : ℕ} (hva : pml4i va = 2) :
    vmmTranslate m.mem (c * frameSize) va ≠ 0 ↔ pathOf va ∈ paths := by
  have hpath := treePath_of_pml4i hva
  rw [vmmTranslate_eq, leafOf_eq, ← h.tree _ hpath]
  rcases hlink : Radix.link pteFrame m.mem (some c) (pathOf va) with - | w
  · have hnone : node pteFrame m.mem (some c) (pathOf va) = none := by
      rw [pathOf] at hlink ⊢
      exact link_eq_none.mp hlink
    rw [hnone]
    exact iff_of_false (fun hne ↦ hne rfl) Bool.false_ne_true
  · have hlink' := hlink
    rw [pathOf] at hlink'
    obtain ⟨f, v, hf, hw, hv⟩ := link_eq_some.mp hlink'
    have hnode : node pteFrame m.mem (some c) (pathOf va) = some v := by
      rw [pathOf, node_cons, hlink']
      exact hv
    have hpos := (h.owns.lt_of_own (o := .inl (0, pathOf va))
      (owners_node.mpr ⟨hpath, by rw [onlyRoot_zero]; exact hnode⟩)).1
    rw [hnode]
    refine iff_of_true (fun hzero ↦ hpos ?_) rfl
    have haddr : pteAddr w = 0 := hzero
    rw [pteFrame] at hv
    split_ifs at hv
    rw [← Option.some.inj hv, haddr, Nat.zero_div]

/-- With frames enough all pages are mapped. -/
theorem mapAll (h : Grown p₀ m c none paths) {xs : List Mapping}
    (hva : ∀ x ∈ xs, pml4i x.va = 2) (hnew : ∀ x ∈ xs, pathOf x.va ∉ paths)
    (hdistinct : (xs.map fun x ↦ pathOf x.va).Nodup)
    (henough : (withPages paths (xs.map Mapping.va)).card ≤ freeCount p₀) :
    ∃ m', Mm.mapAll m (c * frameSize) xs = .ok m' ∧
      Grown p₀ m' c none (withPages paths (xs.map Mapping.va)) := by
  induction xs generalizing m paths with
  | nil => exact ⟨m, rfl, h⟩
  | cons x rest ih =>
    have hva' := hva x (List.mem_cons_self ..)
    have hnew' := hnew x (List.mem_cons_self ..)
    rw [List.map_cons, List.nodup_cons] at hdistinct
    have hstep : withPages paths ((x :: rest).map Mapping.va) =
        withPages (paths ∪ nodesOf x.va) (rest.map Mapping.va) := rfl
    rw [hstep] at henough ⊢
    have hcard : (paths ∪ nodesOf x.va).card ≤ freeCount p₀ :=
      (Finset.card_le_card (subset_withPages _ _)).trans henough
    have hmore : ∀ {paths'}, paths' ⊆ paths ∪ nodesOf x.va → pathOf x.va ∉ paths' →
        paths'.card + 1 ≤ (paths ∪ nodesOf x.va).card := by
      intro paths' hsub hmiss
      have hin : pathOf x.va ∈ paths ∪ nodesOf x.va :=
        Finset.mem_union_right _ (mem_nodesOf.mpr List.suffix_rfl)
      exact Finset.card_lt_card (hsub.ssubset_of_ne fun heq ↦ hmiss (heq ▸ hin))
    rcases h.mapFresh hva' hnew' x.fill x.flags with
      ⟨-, hfull⟩ | ⟨f, m', paths', -, hfull, hgrown, hsub, hsup, hmiss⟩ | ⟨f, m', heq, hgrown⟩
    · -- the page itself has no frame
      have hcount := h.count
      have hlt := hmore Finset.subset_union_left hnew'
      rw [hfull] at hcount
      simp only [Option.toList, List.length_nil] at hcount
      omega
    · -- the page is in hand, a table is missing, and the page has no node either
      have hcount := hgrown.count
      have hleaf : pathOf x.va ∉ paths' := fun hin ↦
        hmiss (hgrown.mem_of_cons (treePath_of_pml4i hva') hin)
      have htable : tablePath x.va ∈ paths ∪ nodesOf x.va :=
        Finset.mem_union_right _ (mem_nodesOf.mpr ⟨[pti x.va], rfl⟩)
      have hlt := hmore (Finset.insert_subset htable hsup) (by
        rw [Finset.mem_insert, not_or]
        exact ⟨fun heq ↦ absurd (congrArg List.length heq) (by simp [pathOf, tablePath]), hleaf⟩)
      rw [Finset.card_insert_of_notMem hmiss] at hlt
      rw [hfull] at hcount
      simp only [Option.toList, List.length_cons, List.length_nil] at hcount
      omega
    · have hrest : ∀ y ∈ rest, pathOf y.va ∉ paths ∪ nodesOf x.va := by
        intro y hy hin
        rcases Finset.mem_union.mp hin with hold | hsame
        · exact hnew y (List.mem_cons_of_mem _ hy) hold
        · exact hdistinct.1 (pathOf_mem_nodesOf.mp hsame ▸ List.mem_map.mpr ⟨y, hy, rfl⟩)
      obtain ⟨m'', hrun, hgrown'⟩ := ih hgrown (fun y hy ↦ hva y (List.mem_cons_of_mem _ hy)) hrest
        hdistinct.2 henough
      refine ⟨m'', ?_, hgrown'⟩
      rw [Mm.mapAll, heq]
      exact hrun

end Grown

end NoOsKernel.Mm
