import NoOsKernel.Mm.KernelInv
import NoOsKernel.Mm.SwapTable

/-!
# What swapping does to the pages

The pages a task has mapped, by task and page number, and what `swap_out` and `swap_in` do to them
and to the entries: one page goes or comes, all others stay as they are. `swap_in` makes no page
table: the one `swap_out` has cleared an entry of is still there.
-/

set_option autoImplicit false
set_option relaxedAutoImplicit false

namespace NoOsKernel.Mm

open Lib Lib.Radix

/-- The page mapped at an address of a task. -/
def mappedPage (k : Kernel) (i va : ℕ) : Option Page :=
  if (k.tasks i).cr3 = 0 ∨ vmmTranslate k.machine.mem (k.tasks i).cr3 va = 0 then none
  else some (k.machine.mem (vmmTranslate k.machine.mem (k.tasks i).cr3 va / frameSize))

/-- The page of a task and a page number. -/
def pageAt (k : Kernel) (p : ℕ × ℕ) : Option Page := mappedPage k p.1 (p.2 * 4096)

/-- The slot of a task and a page number. -/
def slotHolder (k : Kernel) (p : ℕ × ℕ) : Option ℕ := slotOf (k.tasks p.1).swapMap p.2

/-- The address of a page of data: image, script, heap or stack. -/
def IsDataVa (va : ℕ) : Prop := userImageBase ≤ va ∧ va < userModelBase

instance (va : ℕ) : Decidable (IsDataVa va) := inferInstanceAs (Decidable (_ ∧ _))

/-- There is a page table for the address. -/
def HasTable (k : Kernel) (i va : ℕ) : Prop :=
  ∃ pt, node pteFrame k.machine.mem (rootOf k i) [pdi va, pdpti va, pml4i va] = some pt

variable {k k' : Kernel}

theorem IsDataVa.isUserVa {va : ℕ} (h : IsDataVa va) : IsUserVa va := isUserVa_of_low h.1 h.2

theorem IsDataVa.of_div_eq {va va' : ℕ} (h : IsDataVa va) (hpage : va / 4096 = va' / 4096) :
    IsDataVa va' := by
  rw [IsDataVa, userImageBase, userModelBase] at h ⊢
  omega

theorem pathOf_eq_iff_of_data {va va' : ℕ} (h : IsDataVa va) (h' : IsDataVa va') :
    pathOf va = pathOf va' ↔ va / 4096 = va' / 4096 :=
  ⟨pathOf_inj h.isUserVa h'.isUserVa, pathOf_congr⟩

/-- The page is the contents of the frame at the end of the path. -/
theorem mappedPage_eq (h : KernelInv k) {i va : ℕ} (hva : IsUserVa va) :
    mappedPage k i va =
      (node pteFrame k.machine.mem (rootOf k i) (pathOf va)).map k.machine.mem := by
  rw [mappedPage]
  by_cases hcr3 : (k.tasks i).cr3 = 0
  · rw [if_pos (Or.inl hcr3), rootOf, taskRoot, if_pos hcr3, node_none, Option.map_none]
  · have hleaf := h.leafOf_task hcr3 va
    have hnode : node pteFrame k.machine.mem (rootOf k i) (pathOf va) =
        (leafOf k.machine.mem (k.tasks i).cr3 va).bind pteFrame := by
      rw [hleaf, pathOf, node_cons]
    rw [vmmTranslate_eq]
    rcases hsome : leafOf k.machine.mem (k.tasks i).cr3 va with - | w
    · rw [hnode, hsome]
      exact if_pos (Or.inr rfl)
    · obtain ⟨g, v, -, -, hv⟩ := link_eq_some.mp (hleaf.symm.trans hsome)
      rw [hsome, Option.bind_some, hv] at hnode
      have hframe : v = pteAddr w / frameSize := by
        rw [pteFrame] at hv
        split_ifs at hv with hpresent
        exact (Option.some.inj hv).symm
      have hne : pteAddr w ≠ 0 := by
        intro hzero
        rw [hzero, Nat.zero_div] at hframe
        exact (h.mem.owns.lt_of_own (o := .inl (i, pathOf va))
          (owners_node.mpr ⟨treePath_pathOf hva, hnode⟩)).1 hframe
      rw [hnode, Option.map_some, Option.getD_some, if_neg (not_or.mpr ⟨hcr3, hne⟩), hframe,
        Option.map_some]

theorem pageAt_div (h : KernelInv k) {i va : ℕ} (hva : IsDataVa va) :
    pageAt k (i, va / 4096) = mappedPage k i va := by
  have hpage : va / 4096 * 4096 / 4096 = va / 4096 := Nat.mul_div_cancel _ (by decide)
  have hva' : IsDataVa (va / 4096 * 4096) := hva.of_div_eq hpage.symm
  rw [pageAt, mappedPage_eq h hva'.isUserVa, mappedPage_eq h hva.isUserVa, pathOf_congr hpage]

/-- The frame of a mapped page is no table. -/
theorem not_isTable_of_mapped (h : KernelInv k) {i va g : ℕ} (hva : IsUserVa va)
    (hnode : node pteFrame k.machine.mem (rootOf k i) (pathOf va) = some g) :
    ¬ IsTable 4 2 pteFrame k.machine.mem (rootOf k) g ∧ InUse k.machine.pmm g := by
  have hleaf := isLeaf_pathOf hva
  exact ⟨not_isTable_of_leaf h.mem.owns.excl hleaf.1 hleaf.2 hnode,
    h.mem.owns.excl.marked_of_own (.inl (i, pathOf va)) g (owners_node.mpr ⟨hleaf.1, hnode⟩)⟩

/-! ### One page goes or comes -/

/-- One page of data changes; the page tables and the other pages stay. -/
structure PageChange (k k' : Kernel) (i va : ℕ) (page : Option Page) : Prop where
  table : HasTable k i va
  tables : ∀ j v, IsUserVa v → (HasTable k' j v ↔ HasTable k j v)
  here : mappedPage k' i va = page
  elsewhere : ∀ j v, IsUserVa v → ¬ (j = i ∧ pathOf v = pathOf va) →
    mappedPage k' j v = mappedPage k j v

/-- A change of one leaf, told by its frames. -/
theorem PageChange.of_nodes (h : KernelInv k) (h' : KernelInv k') {i va : ℕ} {f : Option ℕ}
    (hva : IsUserVa va) (htable : HasTable k i va) (hroot : rootOf k' = rootOf k)
    (hnodes : ∀ j p, TreePath 4 2 p → node pteFrame k'.machine.mem (rootOf k j) p =
      if j = i ∧ p = pathOf va then f else node pteFrame k.machine.mem (rootOf k j) p)
    (hmem : ∀ g, ¬ IsTable 4 2 pteFrame k.machine.mem (rootOf k) g → InUse k.machine.pmm g →
      k'.machine.mem g = k.machine.mem g) :
    PageChange k k' i va (f.map k'.machine.mem) where
  table := htable
  tables j v hv := by
    have hpath := (treePath_pathOf hv).tail
    rw [HasTable, HasTable, hroot, hnodes j _ hpath, if_neg]
    rintro ⟨-, heq⟩
    have hlen := congrArg List.length heq
    exact absurd hlen (by simp [pathOf])
  here := by
    rw [mappedPage_eq h' hva, hroot, hnodes i _ (treePath_pathOf hva), if_pos ⟨rfl, rfl⟩]
  elsewhere j v hv hne := by
    rw [mappedPage_eq h' hv, mappedPage_eq h hv, hroot, hnodes j _ (treePath_pathOf hv),
      if_neg hne]
    rcases hnode : node pteFrame k.machine.mem (rootOf k j) (pathOf v) with - | g
    · rfl
    · obtain ⟨hnot, huse⟩ := not_isTable_of_mapped h hv hnode
      rw [Option.map_some, Option.map_some, hmem g hnot huse]

theorem rootOf_congr (hcr3 : ∀ j, (k'.tasks j).cr3 = (k.tasks j).cr3) : rootOf k' = rootOf k := by
  funext j
  rw [rootOf, rootOf, taskRoot, taskRoot, hcr3]

/-- What a successful `swap_out` does. -/
structure SwappedOut (k k' : Kernel) (i va slot : ℕ) (page : Page) : Prop where
  absent : slotHolder k (i, va / 4096) = none
  first : firstClear k.swap.slots 0 k.swap.pages = some slot
  mapped : mappedPage k i va = some page
  change : PageChange k k' i va none
  slots : k'.swap.slots = bitSet k.swap.slots slot
  store : k'.swap.store = Function.update k.swap.store slot page
  pages : k'.swap.pages = k.swap.pages
  active : k.swap.active = true ∧ k'.swap.active = true
  entries : (k'.tasks i).swapMap = (k.tasks i).swapMap ++ [⟨va / 4096, slot⟩]
  others : ∀ j ≠ i, (k'.tasks j).swapMap = (k.tasks j).swapMap

/-- `swap_out` of a page of data refuses, or takes the page out. -/
theorem swapOut_cases (h : KernelInv k) {i va : ℕ} (hva : IsDataVa va) :
    swapOut k i va = (-1, k) ∨
      ∃ k' slot page, swapOut k i va = (0, k') ∧ SwappedOut k k' i va slot page := by
  by_cases hrefused : SwapRefused k i va
  · exact Or.inl (swapOut_of_refused hrefused)
  · right
    have h' := h.swapOut (Or.inr hva : SwapRefused k i va ∨ _)
    obtain ⟨slot, hslot, heq⟩ := swapOut_of_not_refused hrefused
    simp only [SwapRefused, not_or, Bool.not_eq_true, Bool.not_eq_false] at hrefused
    obtain ⟨⟨hactive, -, hcr3⟩, hhas, -, hmapped, -⟩ := hrefused
    have hroot := KernelInv.root_eq i hcr3
    obtain ⟨hnodes, hmem⟩ := vmmUnmap_nodes h.mem.owns hroot hva.isUserVa
    rw [(h.tasks i).aligned] at hnodes hmem
    rw [heq] at h' ⊢
    refine ⟨_, slot, _, rfl, ?_, hslot, if_neg (not_or.mpr ⟨hcr3, hmapped⟩), ?_, rfl, rfl, rfl,
      ⟨hactive, hactive⟩, ?_, fun j hj ↦ ?_⟩
    · exact (swapHas_eq_false_iff _ _).mp hhas
    · refine PageChange.of_nodes (f := none) h h' hva.isUserVa ?_ (rootOf_congr fun j ↦ ?_) hnodes
        fun g hg _ ↦ hmem g hg
      · -- the page is mapped, so its walk arrives
        rcases htable : node pteFrame k.machine.mem (rootOf k i)
          [pdi va, pdpti va, pml4i va] with - | pt
        · refine absurd ?_ hmapped
          rw [vmmTranslate_eq, h.leafOf_task hcr3, pathOf, link_eq_none.mpr ?_]
          · rfl
          · rw [node, htable, Option.bind_none]
        · exact ⟨pt, htable⟩
      · by_cases hj : j = i
        · simp only [hj, Function.update_self]
        · simp only [Function.update_of_ne hj]
    · simp only [Function.update_self]
      rfl
    · simp only [Function.update_of_ne hj]

/-- `mapFresh` of a page with a page table changes its leaf only. -/
theorem mapFresh_walked {m : Machine} {root : ℕ → Option ℕ} {loose : Holder → Option ℕ}
    (h : Owns m root loose) {t c va pt : ℕ} (ht : root t = some c) (hva : IsUserVa va)
    (htable : node pteFrame m.mem (root t) [pdi va, pdpti va, pml4i va] = some pt) (page : Page)
    (flags : BitVec 8) :
    mapFresh m (c * frameSize) va (some page) flags = .error m ∨
      ∃ f m', mapFresh m (c * frameSize) va (some page) flags = .ok (f * frameSize, m') ∧
        (∀ j p, TreePath 4 2 p → node pteFrame m'.mem (root j) p =
          if j = t ∧ p = pathOf va then some f else node pteFrame m.mem (root j) p) ∧
        m'.mem f = page ∧
        ∀ g, ¬ IsTable 4 2 pteFrame m.mem root g → InUse m.pmm g → m'.mem g = m.mem g := by
  have hfree : Owns m root fun _ ↦ none := h.drop fun _ _ he ↦ absurd he nofun
  have hpath := treePath_pathOf hva
  rcases hfree.mapFresh (e := .hand) rfl (c * frameSize) va (some page) flags with
    hfail | ⟨f, m₁, heq, hfetched, hown₁, -⟩
  · exact Or.inl hfail
  right
  have hdiv : pt * frameSize / frameSize = pt := Nat.mul_div_cancel _ (by decide)
  have hcongr : ∀ j p, TreePath 4 2 p →
      node pteFrame m₁.mem (root j) p = node pteFrame m.mem (root j) p :=
    fun j p hp ↦ node_congr (fun g ↦ hfetched.tables h) hp
  have htable₁ := (hcongr t _ hpath.tail).trans htable
  have hpt : IsTable 4 2 pteFrame m.mem root pt := ⟨t, _, hpath.tail, hpath.length_tail, htable⟩
  -- the walk finds the page table, and the leaf is the one word written
  have hwalk : walkPt m₁.mem (c * frameSize) va = some (pt * frameSize) := by
    rw [walkPt_eq, ← ht, htable₁, Option.map_some]
  have hmap : vmmMap m₁ (c * frameSize) va (f * frameSize) flags =
      m₁.setWord (pt * frameSize) (pti va) (leafEntry (f * frameSize) flags) := by
    rw [vmmMap_eq_mapWalk, mapWalk_of_walkPt hwalk]
  have hmem : ∀ g, g ≠ pt →
      (m₁.setWord (pt * frameSize) (pti va) (leafEntry (f * frameSize) flags)).mem g =
        m₁.mem g := by
    intro g hg
    funext j
    refine if_neg fun hsame ↦ hg ?_
    rw [hsame.1, hdiv]
  have hptf : f ≠ pt := by
    rintro rfl
    exact not_isTable_of_not_marked h.excl (fun hin ↦ hfetched.fresh hin.2) hpt
  rw [hmap] at heq
  refine ⟨f, _, heq, fun j p hp ↦ ?_, (hmem f hptf).trans hfetched.mine, fun g hg huse ↦ ?_⟩
  · have hw := slotWrite_setWord (w := leafEntry (f * frameSize) flags) hpath htable₁ (Or.inl rfl)
    rw [← hcongr j p hp, ← pteFrame_leafEntry hfetched.small flags]
    exact node_write hw (apart_of_exclusive hown₁.excl) hp
  · rw [hmem g fun hgpt ↦ hg (hgpt ▸ hpt), hfetched.others g fun hgf ↦ hfetched.fresh (hgf ▸ huse).2]

/-- What a successful `swap_in` does. -/
structure SwappedIn (k k' : Kernel) (i va slot : ℕ) : Prop where
  data : IsDataVa va
  entry : slotHolder k (i, va / 4096) = some slot
  change : PageChange k k' i va (some (k.swap.store slot))
  slots : k'.swap.slots = bitClr k.swap.slots slot
  store : k'.swap.store = k.swap.store
  pages : k'.swap.pages = k.swap.pages
  active : k.swap.active = true ∧ k'.swap.active = true
  keys : KeysDistinct (k'.tasks i).swapMap
  entries : ∀ key, slotOf (k'.tasks i).swapMap key =
    if key = va / 4096 then none else slotOf (k.tasks i).swapMap key
  others : ∀ j ≠ i, (k'.tasks j).swapMap = (k.tasks j).swapMap

/-- Where pages with an entry have a page table, `swap_in` fails and changes nothing, or brings the
page in. -/
theorem swapIn_cases (h : KernelInv k) {i : ℕ} (va : ℕ) (hkeys : KeysDistinct (k.tasks i).swapMap)
    (htables : ∀ v, IsDataVa v → slotHolder k (i, v / 4096) ≠ none → HasTable k i v) :
    swapIn k i va = (-1, k) ∨ ∃ k' slot, swapIn k i va = (0, k') ∧ SwappedIn k k' i va slot := by
  have h' := (h.swapIn i va).1
  rw [swapIn] at h' ⊢
  by_cases hoff : k.swap.active = false ∨ (k.tasks i).user = false ∨ (k.tasks i).cr3 = 0
  · exact Or.inl (if_pos hoff)
  rw [if_neg hoff] at h' ⊢
  simp only [not_or, Bool.not_eq_false] at hoff
  obtain ⟨hactive, -, hcr3⟩ := hoff
  rcases hfind : entFind (k.tasks i) va with - | j
  · exact Or.inl rfl
  obtain ⟨hj, hkey⟩ := entFind_spec hfind
  rw [hfind] at h'
  -- the entry found is the one of the page
  have hmem := List.get_mem (k.tasks i).swapMap ⟨j, hj⟩
  set e := (k.tasks i).swapMap.get ⟨j, hj⟩ with he
  have hslot : ((k.tasks i).swapMap[j]?.map SwapEnt.slot).getD 0 = e.slot := by
    rw [List.getElem?_eq_getElem hj]
    rfl
  have hentry : slotHolder k (i, va / 4096) = some e.slot := by
    rw [slotHolder, slotOf_eq_some hkeys]
    rw [show va / 4096 = e.vkey from hkey.symm]
    exact hmem
  have hdata : IsDataVa va := by
    have hrange := (h.tasks i).swapped e hmem
    rw [hkey, userImageBase, userModelBase] at hrange
    rw [IsDataVa, userImageBase, userModelBase]
    omega
  have htable := htables va hdata (by rw [hentry]; rintro ⟨⟩)
  obtain ⟨pt, hpt⟩ := htable
  have hroot := KernelInv.root_eq i hcr3
  have hspec := mapFresh_walked h.mem.owns hroot hdata.isUserVa hpt (k.swap.store e.slot)
    (vmmUser ||| vmmWrite)
  rw [(h.tasks i).aligned] at hspec
  simp only [hslot] at h' ⊢
  rcases hspec with hfail | ⟨f, m', heq, hnodes, hfill, hmem'⟩
  · left
    rw [hfail]
  · right
    rw [heq] at h' ⊢
    refine ⟨_, e.slot, rfl, hdata, hentry, ?_, rfl, rfl, rfl, ⟨hactive, hactive⟩, ?_,
      fun key ↦ ?_, fun l hl ↦ ?_⟩
    · rw [← hfill]
      refine PageChange.of_nodes (f := some f) h h' hdata.isUserVa ⟨pt, hpt⟩
        (rootOf_congr fun l ↦ ?_) hnodes hmem'
      by_cases hl : l = i
      · simp only [hl, Function.update_self]
      · simp only [Function.update_of_ne hl]
    · simp only [Function.update_self]
      exact hkeys.remove hj
    · simp only [Function.update_self]
      rw [slotOf_removeEnt hkeys hj, ← he, hkey]
      rfl
    · simp only [Function.update_of_ne hl]

end NoOsKernel.Mm
