import NoOsKernel.Lib.Postorder
import NoOsKernel.Mm.SpaceGrowth
import NoOsKernel.Mm.Translate

/-!
# Building and freeing an address space

`vmm_free_address_space` reads the tree while it frees it. The frames it frees are those of a sweep
of the nodes below entry `2` of the top table, then the top table (`spaceFrames_eq`): each frame of
the address space once. After an address space has grown by any pages, with frames enough, the
allocator is back where it was.
-/

set_option autoImplicit false
set_option relaxedAutoImplicit false

namespace NoOsKernel.Mm

open Lib Lib.Radix

/-! ### The sweep -/

section Sweep

variable {mem : ℕ → Page} {root : Option ℕ}

/-- A table whose slots are swept by `body` is swept. -/
theorem sweep_table (body : ℕ → List ℕ) (levels : ℕ) {p : List ℕ} {f : ℕ}
    (hnode : node pteFrame mem root p = some f)
    (hbody : ∀ i v, node pteFrame mem root (i :: p) = some v →
      body (v * frameSize) =
        (swept pteFrame mem root 512 levels (i :: p)).map (· * frameSize)) :
    (tableFrames mem (f * frameSize)).flatMap body ++ [f * frameSize] =
      (swept pteFrame mem root 512 (levels + 1) p).map (· * frameSize) := by
  rw [swept_succ hnode, List.map_append, List.map_flatMap, List.map_singleton, tableFrames,
    List.filterMap_eq_flatMap_toList, List.flatMap_assoc, List.append_cancel_right_eq]
  refine List.flatMap_congr fun i _ ↦ ?_
  rw [descend_node hnode]
  rcases hslot : node pteFrame mem root (i :: p) with - | v
  · rw [swept_of_none hslot]
    rfl
  · rw [Option.map_some, Option.toList_some, List.flatMap_singleton]
    exact hbody i v hslot

/-- What is done to a page. -/
theorem sweep_page {p : List ℕ} {f : ℕ} (hnode : node pteFrame mem root p = some f) :
    [f * frameSize] = (swept pteFrame mem root 512 0 p).map (· * frameSize) := by
  rw [swept_zero hnode, List.map_singleton]

/-- What is done to a page table. -/
theorem sweep_pt {p : List ℕ} {f : ℕ} (hnode : node pteFrame mem root p = some f) :
    tableFrames mem (f * frameSize) ++ [f * frameSize] =
      (swept pteFrame mem root 512 1 p).map (· * frameSize) := by
  rw [← sweep_table (fun a ↦ [a]) 0 hnode fun _ _ ↦ sweep_page, List.flatMap_singleton']

/-- What is done to a page directory. -/
theorem sweep_pd {p : List ℕ} {f : ℕ} (hnode : node pteFrame mem root p = some f) :
    ((tableFrames mem (f * frameSize)).flatMap fun pt ↦ tableFrames mem pt ++ [pt]) ++
        [f * frameSize] =
      (swept pteFrame mem root 512 2 p).map (· * frameSize) :=
  sweep_table _ 1 hnode fun _ _ ↦ sweep_pt

/-- What is done to the table of the page directories. -/
theorem sweep_pdpt {p : List ℕ} {f : ℕ} (hnode : node pteFrame mem root p = some f) :
    ((tableFrames mem (f * frameSize)).flatMap fun pd ↦
        ((tableFrames mem pd).flatMap fun pt ↦ tableFrames mem pt ++ [pt]) ++ [pd]) ++
        [f * frameSize] =
      (swept pteFrame mem root 512 3 p).map (· * frameSize) :=
  sweep_table _ 2 hnode fun _ _ ↦ sweep_pd

/-- The frames `vmm_free_address_space` frees, when it does not return at once. -/
theorem spaceFrames_eq {c g : ℕ} (htop : node pteFrame mem (some c) [2] = some g) :
    spaceFrames mem (c * frameSize) =
      (swept pteFrame mem (some c) 512 3 [2] ++ [c]).map (· * frameSize) := by
  rw [spaceFrames, descend_node (show node pteFrame mem (some c) [] = some c from rfl), htop,
    List.map_append, List.map_singleton, ← sweep_pdpt htop, List.append_assoc]
  rfl

end Sweep

namespace Grown

variable {p₀ : Pmm} {m m' : Machine} {c : ℕ} {hand : Option ℕ} {paths : Finset (List ℕ)}

/-- The nodes of the tree are where the sweep looks. -/
theorem mem_sweep (h : Grown p₀ m c hand paths) {f : ℕ} :
    f ∈ swept pteFrame m.mem (some c) 512 3 [2] ++ [c] ↔ InSpace m.mem c f := by
  rw [List.mem_append, mem_swept, List.mem_singleton]
  constructor
  · rintro (⟨r, hlen, -, hnode⟩ | rfl)
    · refine ⟨r ++ [2], ⟨?_, Or.inr List.getLast?_concat⟩, hnode⟩
      rw [List.length_append, List.length_singleton]
      omega
    · exact ⟨[], ⟨Nat.zero_le _, Or.inl rfl⟩, rfl⟩
  · rintro ⟨p, hp, hnode⟩
    rcases List.eq_nil_or_concat p with rfl | ⟨r, i, rfl⟩
    · exact Or.inr (Option.some.inj hnode).symm
    · rw [List.concat_eq_append] at hp hnode
      have hi : i = 2 := by simpa using hp.2
      have hin : r ++ [i] ∈ paths := by
        rw [← h.tree _ hp, hnode]
        rfl
      have hlen := hp.1
      rw [List.length_append, List.length_singleton] at hlen
      subst hi
      refine Or.inl ⟨r, by omega, fun j hj ↦ h.narrow _ hin j ?_, hnode⟩
      exact List.mem_append_left _ hj

/-- No frame is swept twice. -/
theorem nodup_sweep (h : Grown p₀ m c hand paths) :
    (swept pteFrame m.mem (some c) 512 3 [2] ++ [c]).Nodup := by
  have hinj : ∀ q q' g, TreePath 4 2 q → TreePath 4 2 q' →
      node pteFrame m.mem (some c) q = some g → node pteFrame m.mem (some c) q' = some g →
        q = q' := by
    intro q q' g hq hq' hg hg'
    rw [← onlyRoot_zero c] at hg hg'
    have hsame := h.owns.excl.own_inj (.inl (0, q)) (.inl (0, q')) g
      (owners_node.mpr ⟨hq, hg⟩) (owners_node.mpr ⟨hq', hg'⟩)
    rw [Sum.inl.injEq, Prod.mk.injEq] at hsame
    exact hsame.2
  have hpath : ∀ q, q ∈ postorder 512 3 [2] → TreePath 4 2 q ∧ q ≠ [] := by
    intro q hq
    obtain ⟨r, rfl, hlen, -⟩ := mem_postorder.mp hq
    refine ⟨⟨?_, Or.inr List.getLast?_concat⟩, by simp⟩
    rw [List.length_append, List.length_singleton]
    omega
  rw [List.nodup_append]
  refine ⟨nodup_swept fun q q' g hq hq' ↦ hinj q q' g (hpath q hq).1 (hpath q' hq').1,
    List.nodup_singleton c, fun f hf f' hf' ↦ ?_⟩
  rw [List.mem_singleton.mp hf']
  rintro rfl
  rw [swept, List.mem_filterMap] at hf
  obtain ⟨q, hq, hnode⟩ := hf
  exact (hpath q hq).2 (hinj q [] f (hpath q hq).1 ⟨Nat.zero_le _, Or.inl rfl⟩ hnode rfl)

variable (h : Grown p₀ m c hand paths) (htop : [2] ∈ paths)

include h htop

theorem spaceFrames_eq : spaceFrames m.mem (c * frameSize) =
    (swept pteFrame m.mem (some c) 512 3 [2] ++ [c]).map (· * frameSize) := by
  rw [← h.tree [2] ⟨by decide, Or.inr rfl⟩, Option.isSome_iff_exists] at htop
  obtain ⟨g, hg⟩ := htop
  exact Mm.spaceFrames_eq hg

theorem mem_spaceFrames {f : ℕ} :
    f * frameSize ∈ spaceFrames m.mem (c * frameSize) ↔ InSpace m.mem c f := by
  rw [h.spaceFrames_eq htop, List.mem_map, ← h.mem_sweep]
  constructor
  · rintro ⟨g, hg, hsame⟩
    rwa [← Nat.eq_of_mul_eq_mul_right (by decide : 0 < frameSize) hsame]
  · exact fun hf ↦ ⟨f, hf, rfl⟩

/-- Nothing is freed twice. -/
theorem nodup_spaceFrames : (spaceFrames m.mem (c * frameSize)).Nodup := by
  rw [h.spaceFrames_eq htop]
  exact h.nodup_sweep.map fun f g hfg ↦ Nat.eq_of_mul_eq_mul_right (by decide : 0 < frameSize) hfg

theorem pos_of_mem_spaceFrames : ∀ a ∈ spaceFrames m.mem (c * frameSize), a / frameSize ≠ 0 := by
  intro a ha
  rw [h.spaceFrames_eq htop, List.mem_map] at ha
  obtain ⟨g, hg, rfl⟩ := ha
  obtain ⟨p, hp, hnode⟩ := h.mem_sweep.mp hg
  rw [Nat.mul_div_cancel _ (by decide : 0 < frameSize)]
  exact (h.owns.lt_of_own (o := .inl (0, p))
    (owners_node.mpr ⟨hp, by rw [onlyRoot_zero]; exact hnode⟩)).1

/-- The address space is freed, and what is in hand stays taken. -/
theorem marks_free (f : ℕ) :
    Marked (vmmFreeAddressSpace m (c * frameSize)).pmm f ↔ Marked p₀ f ∨ hand = some f := by
  have hpos := h.pos_of_mem_spaceFrames htop
  have hfreed : (∀ a ∈ spaceFrames m.mem (c * frameSize), a / frameSize ≠ f) ↔
      ¬ InSpace m.mem c f := by
    rw [h.spaceFrames_eq htop, List.forall_mem_map, ← h.mem_sweep]
    constructor
    · exact fun hall hf ↦ hall f hf (Nat.mul_div_cancel _ (by decide : 0 < frameSize))
    · rintro hno g hg rfl
      rw [Nat.mul_div_cancel _ (by decide : 0 < frameSize)] at hno
      exact hno hg
  rw [vmmFreeAddressSpace, marked_frees h.owns.pmm _ hpos, h.marks, hfreed]
  have hhand : hand = some f → ¬ InSpace m.mem c f := by
    rintro rfl ⟨p, hp, hnode⟩
    have hheld : inHand (some f) .hand = some f := Function.update_self ..
    have hsame := h.owns.excl.own_inj (.inl (0, p)) (.inr .hand) f
      (owners_node.mpr ⟨hp, by rw [onlyRoot_zero]; exact hnode⟩) hheld
    cases hsame
  have hold := fun hf ↦ (h.fresh f hf).2
  tauto

theorem balanced_free : Balanced p₀ (vmmFreeAddressSpace m (c * frameSize)).pmm :=
  h.balanced.trans (Balanced.frees h.owns.pmm _ (h.pos_of_mem_spaceFrames htop))

end Grown

/-! ### Building and freeing -/

/-- A frame is reached through an entry of the top table, as a table or as a page. -/
def ReachedThrough (mem : ℕ → Page) (c top f : ℕ) : Prop :=
  ∃ p, TreePath 4 top p ∧ p ≠ [] ∧ node pteFrame mem (some c) p = some f

/-- Freeing the address space gives the allocator back as it was: the frames that were taken since
are freed once, and they are the top table and what is reached through entry `2`. -/
structure FreedWhole (p₀ : Pmm) (m : Machine) (c : ℕ) : Prop where
  pmm : (vmmFreeAddressSpace m (c * frameSize)).pmm = p₀
  once : (spaceFrames m.mem (c * frameSize)).Nodup
  taken : ∀ a ∈ spaceFrames m.mem (c * frameSize), ∃ f, a = f * frameSize ∧ Marked m.pmm f ∧
    ¬ Marked p₀ f
  all : ∀ f, Marked m.pmm f → ¬ Marked p₀ f → f * frameSize ∈ spaceFrames m.mem (c * frameSize)
  reached : ∀ f, f * frameSize ∈ spaceFrames m.mem (c * frameSize) ↔
    f = c ∨ ReachedThrough m.mem c 2 f

theorem Grown.freedWhole {p₀ : Pmm} {m : Machine} {c : ℕ} {paths : Finset (List ℕ)}
    (h : Grown p₀ m c none paths) (htop : [2] ∈ paths) (hsmall : p₀.freeFrames < 2 ^ 64) :
    FreedWhole p₀ m c := by
  have hmarks : ∀ f, Marked (vmmFreeAddressSpace m (c * frameSize)).pmm f ↔ Marked p₀ f := by
    intro f
    rw [h.marks_free htop]
    exact or_iff_left nofun
  refine ⟨(h.balanced_free htop).eq_of_marks hsmall hmarks, h.nodup_spaceFrames htop,
    fun a ha ↦ ?_, fun f hf hnot ↦ ?_, fun f ↦ ?_⟩
  · have ha' := ha
    rw [h.spaceFrames_eq htop, List.mem_map] at ha
    obtain ⟨f, -, rfl⟩ := ha
    have hspace := (h.mem_spaceFrames htop).mp ha'
    refine ⟨f, rfl, (h.marks f).mpr (Or.inr (Or.inr hspace)), fun hold ↦ ?_⟩
    exact (h.fresh f hold).2 hspace
  · rw [h.mem_spaceFrames htop]
    rcases (h.marks f).mp hf with hold | hhand | hspace
    · exact absurd hold hnot
    · cases hhand
    · exact hspace
  · rw [h.mem_spaceFrames htop]
    constructor
    · rintro ⟨p, hp, hnode⟩
      by_cases hnil : p = []
      · rw [hnil] at hnode
        exact Or.inl (Option.some.inj hnode).symm
      · exact Or.inr ⟨p, hp, hnil, hnode⟩
    · rintro (rfl | ⟨p, hp, -, hnode⟩)
      · exact ⟨[], ⟨Nat.zero_le _, Or.inl rfl⟩, rfl⟩
      · exact ⟨p, hp, hnode⟩

/-- Consecutive pages below one entry of the top table are different pages: there are fewer of them
than the walk can tell apart. -/
theorem nodup_userPages {pages vaddr : ℕ}
    (hpages : ∀ x ∈ userPages pages vaddr, pml4i x.va = 2) :
    ((userPages pages vaddr).map fun x ↦ pathOf x.va).Nodup := by
  have hentry : ∀ i < pages, (vaddr + i * 4096) / 2 ^ 39 % 512 = 2 := by
    intro i hi
    have hpage := hpages _ (List.mem_map.mpr ⟨i, List.mem_range.mpr hi, rfl⟩)
    rw [pml4i] at hpage
    simp only at hpage
    omega
  rw [userPages, List.map_map]
  refine List.Nodup.map_on (fun i hi j hj hsame ↦ ?_) List.nodup_range
  rw [List.mem_range] at hi hj
  simp only [Function.comp_apply, pathOf_eq_iff] at hsame
  -- pages the walk confuses are a whole round apart, and entry `3` lies between them
  rcases lt_trichotomy i j with hlt | heq | hlt
  · have hi' := hentry i hi
    have hnext := hentry (i + 2 ^ 27) (by omega)
    omega
  · exact heq
  · have hj' := hentry j hj
    have hnext := hentry (j + 2 ^ 27) (by omega)
    omega

/-- Building an address space and freeing it leaves the allocator as it was. -/
theorem addressSpace_neutral {m : Machine} (hpmm : PmmOk m.pmm)
    (hcounter : m.pmm.freeFrames < 2 ^ 64) (bootPml4 : ℕ) {pages vaddr : ℕ} (hone : 1 ≤ pages)
    (hpages : ∀ x ∈ userPages pages vaddr, pml4i x.va = 2) {more : List Mapping}
    (hmore : ∀ x ∈ more, pml4i x.va = 2) (hdistinct : (more.map fun x ↦ pathOf x.va).Nodup)
    (hunmapped : ∀ x ∈ more, ∀ y ∈ userPages pages vaddr, pathOf x.va ≠ pathOf y.va)
    (henough : (treeOf ((userPages pages vaddr ++ more).map Mapping.va)).card ≤ freeCount m.pmm) :
    ∃ c m₁ m₂ m₃, vmmNewAddressSpace m bootPml4 = (c * frameSize, m₁) ∧ c ≠ 0 ∧
      vmmAllocUserPages m₁ (c * frameSize) pages vaddr = (vaddr, m₂) ∧
      mapAll m₂ (c * frameSize) more = .ok m₃ ∧
      (∀ x ∈ userPages pages vaddr ++ more, vmmTranslate m₃.mem (c * frameSize) x.va ≠ 0) ∧
      FreedWhole m.pmm m₃ c := by
  have hone' : userPages pages vaddr ≠ [] := by
    rw [userPages, ne_eq, List.map_eq_nil_iff, List.range_eq_nil]
    omega
  rw [List.map_append] at henough
  set first := (userPages pages vaddr).map Mapping.va with hfirst
  have hsplit : treeOf (first ++ more.map Mapping.va) =
      withPages (treeOf first) (more.map Mapping.va) := List.foldl_append ..
  have hroot : ∀ va : ℕ, pathOf va ∉ ({[]} : Finset (List ℕ)) := fun va hin ↦
    absurd (Finset.mem_singleton.mp hin) (List.cons_ne_nil _ _)
  rw [hsplit] at henough
  rcases Grown.newSpace hpmm bootPml4 with ⟨-, hfull⟩ | ⟨c, m₁, hnew, hne, h₁⟩
  · have hpos : 0 < (withPages (treeOf first) (more.map Mapping.va)).card :=
      Finset.card_pos.mpr ⟨[], subset_withPages _ _ (subset_withPages _ _
        (Finset.mem_singleton_self _))⟩
    omega
  obtain ⟨m₂, halloc, h₂⟩ := h₁.mapAll hpages (fun x _ ↦ hroot x.va) (nodup_userPages hpages)
    ((Finset.card_le_card (subset_withPages _ _)).trans henough)
  have hnot : ∀ x ∈ more, pathOf x.va ∉ treeOf first := by
    intro x hx hin
    rcases mem_withPages.mp hin with hin | ⟨va, hva, hsuffix⟩
    · exact hroot x.va hin
    · obtain ⟨y, hy, rfl⟩ := List.mem_map.mp hva
      exact hunmapped x hx y hy (hsuffix.eq_of_length rfl)
  obtain ⟨m₃, hmap, h₃⟩ := h₂.mapAll hmore hnot hdistinct henough
  have hmapped : ∀ x ∈ userPages pages vaddr ++ more,
      pathOf x.va ∈ withPages (treeOf first) (more.map Mapping.va) := by
    intro x hx
    rw [← hsplit, ← List.map_append]
    exact mem_withPages.mpr (Or.inr ⟨x.va, List.mem_map_of_mem hx, List.suffix_rfl⟩)
  have hall : ∀ x ∈ userPages pages vaddr ++ more, pml4i x.va = 2 :=
    fun x hx ↦ (List.mem_append.mp hx).elim (hpages x) (hmore x)
  refine ⟨c, m₁, m₂, m₃, hnew, hne, by rw [vmmAllocUserPages, halloc], hmap,
    fun x hx ↦ (h₃.translate_ne_zero_iff (hall x hx)).mpr (hmapped x hx),
    h₃.freedWhole ?_ hcounter⟩
  -- some page is mapped, so entry `2` of the top table is there
  obtain ⟨x, hx⟩ := List.exists_mem_of_ne_nil _ hone'
  refine subset_withPages _ _ (mem_withPages.mpr (Or.inr ⟨x.va, List.mem_map_of_mem hx, ?_⟩))
  rw [pathOf, hpages x hx]
  exact ⟨[pti x.va, pdi x.va, pdpti x.va], rfl⟩

/-- Two pages of an image and a page of the heap, in the machine after boot. -/
theorem addressSpace_neutral_boot : ∃ c m₁ m₂ m₃,
    vmmNewAddressSpace bootSpaces.machine 0x101000 = (c * frameSize, m₁) ∧ c ≠ 0 ∧
      vmmAllocUserPages m₁ (c * frameSize) 2 userImageBase = (userImageBase, m₂) ∧
      mapAll m₂ (c * frameSize) [⟨userHeapBase, none, vmmUser⟩] = .ok m₃ ∧
      (∀ x ∈ userPages 2 userImageBase ++ [⟨userHeapBase, none, vmmUser⟩],
        vmmTranslate m₃.mem (c * frameSize) x.va ≠ 0) ∧
      FreedWhole bootSpaces.machine.pmm m₃ c :=
  addressSpace_neutral bootSpaces_pmmOk (by decide) 0x101000 (by decide) (by decide) (by decide)
    (by decide) (by decide) (by decide +kernel)

end NoOsKernel.Mm
