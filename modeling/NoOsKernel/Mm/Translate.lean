import NoOsKernel.Lib.Runs
import NoOsKernel.Mm.AddressSpace
import NoOsKernel.Mm.Swap

/-!
# What mapping does to translations

`vmm_map`, `vmm_unmap` and `vmm_translate` on any number of address spaces, whatever frames they
map: a mapped frame may be shared, or be no memory at all. Only the tables are owned (`Tabled`), and
that is enough for the translations to be independent of each other. The walks look at bits `12` to
`47` of an address, so that two addresses that agree there have one translation.
-/

set_option autoImplicit false
set_option relaxedAutoImplicit false

namespace NoOsKernel.Mm

open Lib Lib.Radix

/-! ### Address spaces by name -/

/-- The machine, and the `cr3` of every address space; `0` is a name without one. -/
structure Spaces where
  machine : Machine
  cr3 : ℕ → ℕ

/-- What is done to the address spaces, and what happens elsewhere in the meantime. -/
inductive VmmOp
  | newSpace (t bootPml4 : ℕ)
  | map (t : ℕ) (va paddr : BitVec 64) (flags : BitVec 8)
  | unmap (t : ℕ) (va : BitVec 64)
  | elsewhere (m : Machine)

namespace Spaces

/-- The top table of an address space. -/
def root (s : Spaces) (t : ℕ) : Option ℕ :=
  if s.cr3 t = 0 then none else some (s.cr3 t / frameSize)

def step (s : Spaces) : VmmOp → Spaces
  | .newSpace t bootPml4 =>
    let r := vmmNewAddressSpace s.machine bootPml4
    { machine := r.2, cr3 := Function.update s.cr3 t r.1 }
  | .map t va paddr flags =>
    { s with machine := vmmMap s.machine (s.cr3 t) va.toNat paddr.toNat flags }
  | .unmap t va => { s with machine := vmmUnmap s.machine (s.cr3 t) va.toNat }
  | .elsewhere m => { s with machine := m }

/-- An address space gets a name that is free, pages are mapped below entry `2` of the top table,
and nobody else writes a table or gives its frame back. -/
def Admitted (s : Spaces) : VmmOp → Prop
  | .newSpace t _ => s.cr3 t = 0
  | .map t va _ _ => s.cr3 t ≠ 0 ∧ pml4i va.toNat = 2
  | .unmap t va => s.cr3 t ≠ 0 ∧ pml4i va.toNat = 2
  | .elsewhere m => PmmOk m.pmm ∧ ∀ f, IsTable 4 2 pteFrame s.machine.mem s.root f →
      Marked m.pmm f ∧ m.mem f = s.machine.mem f

/-- `vmm_translate` in an address space. -/
def translate (s : Spaces) (t : ℕ) (va : BitVec 64) : ℕ :=
  vmmTranslate s.machine.mem (s.cr3 t) va.toNat

/-- `vmm_map` needs a table that it cannot get a frame for. -/
def LacksTable (s : Spaces) (t : ℕ) (va : BitVec 64) (flags : BitVec 8) : Prop :=
  (mapWalk s.machine (s.cr3 t) va.toNat flags).1 = none

instance (s : Spaces) (t : ℕ) (va : BitVec 64) (flags : BitVec 8) :
    Decidable (s.LacksTable t va flags) :=
  inferInstanceAs (Decidable (_ = _))

end Spaces

/-- Addresses of one page: they agree on bits `12` to `47`. -/
def SamePage (va w : BitVec 64) : Prop := va.toNat / 2 ^ 12 % 2 ^ 36 = w.toNat / 2 ^ 12 % 2 ^ 36

/-! ### Tables -/

/-- The tables below the roots are marked and apart from each other, and the top tables have no
entries but the first and the third. -/
structure Tabled (m : Machine) (root : ℕ → Option ℕ) : Prop where
  pmm : PmmOk m.pmm
  excl : Exclusive (owners 3 2 pteFrame m.mem root fun _ : Empty ↦ none) (InUse m.pmm)
  top : ∀ t c, root t = some c → ∀ i, i ≠ 0 → i ≠ 2 → pteFrame (m.mem c i) = none

variable {m m' : Machine} {root : ℕ → Option ℕ}

namespace Tabled

theorem apart (h : Tabled m root) : Apart 4 2 pteFrame m.mem root := apart_succ h.excl

theorem inUse (h : Tabled m root) {g : ℕ} (hg : IsTable 4 2 pteFrame m.mem root g) :
    InUse m.pmm g := by
  obtain ⟨t, p, hp, hlen, hnode⟩ := hg
  exact h.excl.marked_of_own (.inl (t, p)) g
    (owners_node.mpr ⟨⟨Nat.le_of_lt_succ hlen, hp.2⟩, hnode⟩)

/-- Tables that stay marked and keep their words. -/
theorem of_same (h : Tabled m root) (hpmm : PmmOk m'.pmm)
    (hsame : ∀ g, IsTable 4 2 pteFrame m.mem root g → Marked m'.pmm g ∧ m'.mem g = m.mem g) :
    Tabled m' root := by
  have hmem : ∀ g, IsTable 3 2 pteFrame m.mem root g → m'.mem g = m.mem g := by
    rintro g ⟨t, p, hp, hlen, hnode⟩
    exact (hsame g ⟨t, p, ⟨hp.1.trans (by decide), hp.2⟩, by omega, hnode⟩).2
  refine ⟨hpmm, ?_, fun t c hroot i ↦ ?_⟩
  · rw [owners_congr hmem]
    refine ⟨fun o f ho ↦ ?_, h.excl.own_inj⟩
    have hf := (h.excl.marked_of_own o f ho).1
    cases o with
    | inr e => cases e
    | inl tp =>
      obtain ⟨t, p⟩ := tp
      obtain ⟨hp, hnode⟩ := owners_node.mp ho
      exact ⟨hf, (hsame f ⟨t, p, ⟨hp.1.trans (by decide), hp.2⟩,
        Nat.lt_succ_of_le hp.1, hnode⟩).1⟩
  · rw [(hsame c ⟨t, [], ⟨Nat.zero_le 4, Or.inl rfl⟩, by decide, hroot⟩).2]
    exact h.top t c hroot i

/-- A fresh table is linked. -/
theorem link (h : Tabled m root) {t i v : ℕ} {p : List ℕ} (hlen : p.length < 3)
    (hlinked : Linked m m' root t i p v) : Tabled m' root := by
  obtain ⟨w, hw, hslot⟩ := hlinked.slot
  refine ⟨hlinked.pmm, ?_, fun t' c hroot j hj hj' ↦ ?_⟩
  · exact exclusive_link (hslot.shallow hlen) h.excl hw (fun hin ↦ hlinked.fresh hin.2)
      (fun k hk ↦ ⟨hk.1, (hlinked.marks k).mpr (Or.inl hk.2)⟩)
      ⟨hlinked.pos, (hlinked.marks v).mpr (Or.inr rfl)⟩
  · rw [root_write hslot h.apart hroot hj']
    exact h.top t' c hroot j hj hj'

/-- A word of a page table is written. -/
theorem setWord (h : Tabled m root) {t f i : ℕ} {p : List ℕ} (w : Word)
    (hp : TreePath 4 2 (i :: p)) (hlen : p.length = 3)
    (hnode : node pteFrame m.mem (root t) p = some f) :
    Tabled (m.setWord (f * frameSize) i w) root := by
  have hdiv : f * frameSize / frameSize = f := Nat.mul_div_cancel _ (by decide)
  have hw := slotWrite_setWord (w := w) hp hnode (Or.inl (by rw [hlen]))
  refine ⟨h.pmm, ?_, fun t' c hroot j hj hj' ↦ ?_⟩
  · have hleaf : ¬ IsTable 3 2 pteFrame m.mem root f :=
      not_isTable_of_leaf h.excl ⟨hlen.le, hp.tail.2⟩ hlen hnode
    have hmem : ∀ g, IsTable 3 2 pteFrame m.mem root g →
        (m.setWord (f * frameSize) i w).mem g = m.mem g := by
      intro g hg
      funext j
      refine if_neg fun heq ↦ hleaf ?_
      rw [← hdiv, ← heq.1]
      exact hg
    rw [owners_congr hmem]
    exact h.excl
  · rw [root_write hw h.apart hroot hj']
    exact h.top t' c hroot j hj hj'

/-- A new top table. -/
theorem plant (h : Tabled m root) {c : ℕ} (hnew : Planted m m' c) (t : ℕ) :
    Tabled m' (Function.update root t (some c)) := by
  have hfresh : ¬ InUse m.pmm c := fun hin ↦ hnew.fresh hin.2
  have htop : pteFrame (m'.mem c 2) = none := by
    rw [hnew.empty 2 (by decide)]
    exact pteFrame_zero
  refine ⟨hnew.pmm, exclusive_plant h.excl hfresh hnew.same htop
    (fun k hk ↦ ⟨hk.1, (hnew.marks k).mpr (Or.inl hk.2)⟩)
    ⟨hnew.pos, (hnew.marks c).mpr (Or.inr rfl)⟩, fun t' c' hroot i hi hi' ↦ ?_⟩
  by_cases hc : c' = c
  · rw [hc, hnew.empty i hi, pteFrame_zero]
  · have hold : root t' = some c' := by
      by_cases ht : t' = t
      · rw [ht, Function.update_self, Option.some.injEq] at hroot
        exact absurd hroot.symm hc
      · rwa [Function.update_of_ne ht] at hroot
    rw [hnew.same c' hc]
    exact h.top t' c' hold i hi hi'

end Tabled

/-- Without trees nobody owns a frame. -/
theorem no_owner (hroot : ∀ t, root t = none) (o : (ℕ × List ℕ) ⊕ Empty) (f : ℕ) :
    owners 3 2 pteFrame m.mem root (fun _ ↦ none) o ≠ some f := by
  intro ho
  cases o with
  | inr e => cases e
  | inl tp =>
    obtain ⟨t, p⟩ := tp
    have hnode := (owners_node.mp ho).2
    rw [hroot, node_none] at hnode
    cases hnode

/-! ### One operation -/

/-- One level of the walk of `vmm_map` keeps the tables and the leaves. -/
theorem nextTable_tabled (h : Tabled m root) {t f i : ℕ} {p : List ℕ} {flags : BitVec 8}
    (hflags : flags.toNat % 2 = 1) (hp : TreePath 4 2 (i :: p)) (hlen : p.length < 3)
    (hnode : node pteFrame m.mem (root t) p = some f) :
    nextTable m (f * frameSize) i flags = (none, m) ∨
      ∃ v m', nextTable m (f * frameSize) i flags = (some (v * frameSize), m') ∧
        Tabled m' root ∧ SameLeaves root m m' ∧
        node pteFrame m'.mem (root t) (i :: p) = some v := by
  rcases nextTable_cases h.pmm (fun _ hg ↦ (h.inUse hg).2) hflags hp hnode with
    ⟨hfail, -⟩ | ⟨v, heq, hthere⟩ | ⟨v, m', heq, hlinked⟩
  · exact Or.inl hfail
  · exact Or.inr ⟨v, m, heq, h, SameLeaves.refl, hthere⟩
  · obtain ⟨w, hw, hslot⟩ := hlinked.slot
    refine Or.inr ⟨v, m', heq, h.link hlen hlinked, sameLeaves_of_slotWrite h.apart hslot hlen, ?_⟩
    rw [node_write hslot h.apart hp, if_pos ⟨rfl, rfl⟩, hw]

/-- `vmm_map` keeps the tables, and writes the leaf when it gets there. -/
theorem vmmMap_tabled (h : Tabled m root) {t c va : ℕ} (ht : root t = some c)
    (hva : pml4i va = 2) (paddr : ℕ) (flags : BitVec 8) :
    Tabled (vmmMap m (c * frameSize) va paddr flags) root ∧
      ∀ t' p, IsLeaf p →
        link pteFrame (vmmMap m (c * frameSize) va paddr flags).mem (root t') p =
          if (mapWalk m (c * frameSize) va flags).1 ≠ none ∧ t' = t ∧ p = pathOf va then
            (some (leafEntry paddr flags)).filter fun w ↦ (pteFrame w).isSome
          else link pteFrame m.mem (root t') p := by
  have hpath := treePath_of_pml4i hva
  obtain ⟨h', hsame, harrive⟩ := mapWalk_spec (fun m ↦ Tabled m root)
    (fun h ↦ nextTable_tabled h) h ht hpath flags
  rw [vmmMap_eq_mapWalk]
  rcases hwalk : mapWalk m (c * frameSize) va flags with ⟨- | a, m'⟩
  · rw [hwalk] at h' hsame
    refine ⟨h', fun t' p hp ↦ ?_⟩
    rw [if_neg fun hne ↦ hne.1 rfl]
    exact hsame t' p hp
  · rw [hwalk] at h' hsame harrive
    obtain ⟨pt, rfl, hnode⟩ := harrive a rfl
    refine ⟨h'.setWord _ hpath rfl hnode, fun t' p hp ↦ ?_⟩
    have hw := slotWrite_setWord (w := leafEntry paddr flags) hpath hnode (Or.inl rfl)
    obtain ⟨hp, hfour⟩ := hp
    cases p with
    | nil => exact absurd hfour (by decide)
    | cons i p =>
      rw [link_write hw h'.apart hp, hsame t' _ ⟨hp, hfour⟩]
      simp only [ne_eq, reduceCtorEq, not_false_eq_true, true_and]
      rfl

/-- `vmm_unmap` keeps the tables, and clears the leaf. -/
theorem vmmUnmap_tabled (h : Tabled m root) {t c va : ℕ} (ht : root t = some c)
    (hva : pml4i va = 2) :
    Tabled (vmmUnmap m (c * frameSize) va) root ∧
      ∀ t' p, IsLeaf p → link pteFrame (vmmUnmap m (c * frameSize) va).mem (root t') p =
        if t' = t ∧ p = pathOf va then none else link pteFrame m.mem (root t') p := by
  have hpath := treePath_of_pml4i hva
  rw [vmmUnmap, walkPt_eq, ← ht]
  rcases hnode : node pteFrame m.mem (root t) [pdi va, pdpti va, pml4i va] with - | pt
  · rw [Option.map_none]
    refine ⟨h, fun t' p hp ↦ ?_⟩
    split_ifs with hmine
    · rw [hmine.1, hmine.2, pathOf, link_eq_none, node, hnode, Option.bind_none]
    · rfl
  · rw [Option.map_some]
    refine ⟨h.setWord 0 hpath rfl hnode, fun t' p hp ↦ ?_⟩
    have hw := slotWrite_setWord (w := 0) hpath hnode (Or.inl rfl)
    obtain ⟨hp, hfour⟩ := hp
    cases p with
    | nil => exact absurd hfour (by decide)
    | cons i p => exact link_write hw h.apart hp

/-! ### Runs -/

/-- The tables are in order, and every `cr3` is the address of a frame. -/
structure SpacesOk (s : Spaces) : Prop where
  tabled : Tabled s.machine s.root
  aligned : ∀ t, s.cr3 t / frameSize * frameSize = s.cr3 t

namespace SpacesOk

variable {s s' : Spaces}

theorem root_eq {t : ℕ} (ht : s.cr3 t ≠ 0) : s.root t = some (s.cr3 t / frameSize) := if_neg ht

theorem newSpace (h : SpacesOk s) {t : ℕ} (ht : s.cr3 t = 0) (bootPml4 : ℕ) :
    SpacesOk (s.step (.newSpace t bootPml4)) := by
  rcases vmmNewAddressSpace_cases h.tabled.pmm bootPml4 with hfail | ⟨c, m', heq, hnew⟩
  · have hsame : s.step (.newSpace t bootPml4) = s := by
      simp only [Spaces.step, hfail]
      rw [← ht, Function.update_eq_self]
    rw [hsame]
    exact h
  · have hdiv : c * frameSize / frameSize = c := Nat.mul_div_cancel _ (by decide)
    have hroot : (s.step (.newSpace t bootPml4)).root = Function.update s.root t (some c) := by
      funext t'
      simp only [Spaces.root, Spaces.step, heq]
      by_cases ht' : t' = t
      · rw [ht', Function.update_self, Function.update_self, hdiv,
          if_neg (Nat.mul_ne_zero hnew.pos (by decide))]
      · rw [Function.update_of_ne ht', Function.update_of_ne ht', Spaces.root]
    constructor
    · rw [hroot]
      simp only [Spaces.step, heq]
      exact h.tabled.plant hnew t
    · intro t'
      simp only [Spaces.step, heq]
      by_cases ht' : t' = t
      · rw [ht', Function.update_self, hdiv]
      · rw [Function.update_of_ne ht']
        exact h.aligned t'

theorem step (h : SpacesOk s) {op : VmmOp} (hop : s.Admitted op) : SpacesOk (s.step op) := by
  cases op with
  | newSpace t bootPml4 => exact h.newSpace hop bootPml4
  | map t va paddr flags =>
    refine ⟨?_, h.aligned⟩
    have hmap := vmmMap_tabled h.tabled (root_eq hop.1) hop.2 paddr.toNat flags
    rw [h.aligned t] at hmap
    exact hmap.1
  | unmap t va =>
    refine ⟨?_, h.aligned⟩
    have hunmap := vmmUnmap_tabled h.tabled (root_eq hop.1) hop.2
    rw [h.aligned t] at hunmap
    exact hunmap.1
  | elsewhere m => exact ⟨h.tabled.of_same hop.1 hop.2, h.aligned⟩

/-- A translation is what the leaf of the address says. -/
theorem translate_eq (h : SpacesOk s) {t : ℕ} (ht : s.cr3 t ≠ 0) (va : BitVec 64) :
    s.translate t va =
      ((link pteFrame s.machine.mem (s.root t) (pathOf va.toNat)).map pteAddr).getD 0 := by
  rw [Spaces.translate, vmmTranslate_eq, ← h.aligned t, leafOf_eq, root_eq ht]

/-- Below the other entries of a top table nothing is mapped. -/
theorem translate_of_top (h : SpacesOk s) {t : ℕ} (ht : s.cr3 t ≠ 0) {va : BitVec 64}
    (hzero : pml4i va.toNat ≠ 0) (htwo : pml4i va.toNat ≠ 2) : s.translate t va = 0 := by
  have hentry := h.tabled.top t _ (root_eq ht) _ hzero htwo
  have hnode : node pteFrame s.machine.mem (s.root t) (pathOf va.toNat) = none := by
    simp only [pathOf, node, root_eq ht, Option.bind_some, hentry, Option.bind_none]
  rw [h.translate_eq ht, pathOf, link_eq_none.mpr hnode]
  rfl

/-- What the leaf says decides the translation. -/
theorem translate_congr (h : SpacesOk s) (h' : SpacesOk s') (hcr3 : s'.cr3 = s.cr3) {t : ℕ}
    (ht : s.cr3 t ≠ 0) {va : BitVec 64} (hzero : pml4i va.toNat ≠ 0)
    (hlink : pml4i va.toNat = 2 → link pteFrame s'.machine.mem (s'.root t) (pathOf va.toNat) =
      link pteFrame s.machine.mem (s.root t) (pathOf va.toNat)) :
    s'.translate t va = s.translate t va := by
  have ht' : s'.cr3 t ≠ 0 := by rwa [hcr3]
  by_cases htwo : pml4i va.toNat = 2
  · rw [h.translate_eq ht, h'.translate_eq ht', hlink htwo]
  · rw [h.translate_of_top ht hzero htwo, h'.translate_of_top ht' hzero htwo]

end SpacesOk

/-- An operation on `va` in space `t` leaves every other translation alone: those of the other
pages, and all of the other address spaces. -/
def KeepsOthers (s s' : Spaces) (t : ℕ) (va : BitVec 64) : Prop :=
  ∀ t' w, s.cr3 t' ≠ 0 → pml4i w.toNat ≠ 0 → (t' = t → ¬ SamePage va w) →
    s'.translate t' w = s.translate t' w

theorem map_translate {s : Spaces} (h : SpacesOk s) {t : ℕ} (ht : s.cr3 t ≠ 0) {va : BitVec 64}
    (hva : pml4i va.toNat = 2) (paddr : BitVec 64) (flags : BitVec 8) :
    KeepsOthers s (s.step (.map t va paddr flags)) t va ∧
      (s.step (.map t va paddr flags)).translate t va =
        if s.LacksTable t va flags then s.translate t va else paddr.toNat / 4096 * 4096 := by
  have hop : s.Admitted (.map t va paddr flags) := ⟨ht, hva⟩
  have h' := h.step hop
  have hlinks := (vmmMap_tabled h.tabled (SpacesOk.root_eq ht) hva paddr.toNat flags).2
  rw [h.aligned t] at hlinks
  constructor
  · intro t' w ht' hzero hother
    refine h.translate_congr h' rfl ht' hzero fun htwo ↦ ?_
    refine (hlinks t' _ ⟨treePath_of_pml4i htwo, rfl⟩).trans (if_neg ?_)
    rintro ⟨-, heq, hpath⟩
    exact hother heq ((pathOf_eq_iff _ _).mp hpath.symm)
  · have hleaf := hlinks t _ ⟨treePath_of_pml4i hva, rfl⟩
    rw [h'.translate_eq ht, h.translate_eq ht]
    refine (congrArg (fun l ↦ (Option.map pteAddr l).getD 0) hleaf).trans ?_
    by_cases hlacks : s.LacksTable t va flags
    · rw [if_pos hlacks, if_neg fun hne ↦ hne.1 hlacks]
    · have hsome : (pteFrame (leafEntry paddr.toNat flags)).isSome = true := by
        rw [pteFrame_of_present (present_leafEntry paddr.isLt flags)]
        rfl
      rw [if_neg hlacks, if_pos ⟨hlacks, rfl, rfl⟩, Option.filter_some, if_pos hsome]
      exact pteAddr_leafEntry paddr.isLt flags

theorem unmap_translate {s : Spaces} (h : SpacesOk s) {t : ℕ} (ht : s.cr3 t ≠ 0) {va : BitVec 64}
    (hva : pml4i va.toNat = 2) :
    KeepsOthers s (s.step (.unmap t va)) t va ∧ (s.step (.unmap t va)).translate t va = 0 := by
  have hop : s.Admitted (.unmap t va) := ⟨ht, hva⟩
  have h' := h.step hop
  have hlinks := (vmmUnmap_tabled h.tabled (SpacesOk.root_eq ht) hva).2
  rw [h.aligned t] at hlinks
  constructor
  · intro t' w ht' hzero hother
    refine h.translate_congr h' rfl ht' hzero fun htwo ↦ ?_
    refine (hlinks t' _ ⟨treePath_of_pml4i htwo, rfl⟩).trans (if_neg ?_)
    rintro ⟨heq, hpath⟩
    exact hother heq ((pathOf_eq_iff _ _).mp hpath.symm)
  · have hleaf := hlinks t _ ⟨treePath_of_pml4i hva, rfl⟩
    rw [if_pos ⟨rfl, rfl⟩] at hleaf
    rw [h'.translate_eq ht]
    exact congrArg (fun l ↦ (Option.map pteAddr l).getD 0) hleaf

/-- In every run that starts without address spaces: `vmm_map` gives the page of its address the
base of the frame, unless it lacks a table, and then leaves it as it was; `vmm_unmap` takes the page
out; and neither changes another translation. -/
theorem vmm_translate_algebra {s₀ s : Spaces} (hpmm : PmmOk s₀.machine.pmm)
    (hnone : ∀ t, s₀.cr3 t = 0) (hrun : Run Spaces.step Spaces.Admitted s₀ s) {t : ℕ}
    (ht : s.cr3 t ≠ 0) {va : BitVec 64} (hva : pml4i va.toNat = 2) :
    (∀ paddr flags, KeepsOthers s (s.step (.map t va paddr flags)) t va ∧
      (s.step (.map t va paddr flags)).translate t va =
        if s.LacksTable t va flags then s.translate t va else paddr.toNat / 4096 * 4096) ∧
    KeepsOthers s (s.step (.unmap t va)) t va ∧ (s.step (.unmap t va)).translate t va = 0 := by
  have hinit : SpacesOk s₀ := by
    have hroot : ∀ t, s₀.root t = none := fun t ↦ if_pos (hnone t)
    refine ⟨⟨hpmm, ⟨fun o f ho ↦ ?_, fun o o' f ho ↦ ?_⟩, fun t c hc ↦ ?_⟩, fun t ↦ ?_⟩
    · exact absurd ho (no_owner hroot o f)
    · exact absurd ho (no_owner hroot o f)
    · rw [hroot t] at hc
      cases hc
    · rw [hnone t]
      rfl
  have h : SpacesOk s := hrun.invariant SpacesOk hinit fun u op hu hop ↦ hu.step hop
  exact ⟨fun paddr flags ↦ map_translate h ht hva paddr flags, unmap_translate h ht hva⟩

/-- A machine with the boot tables, whose first free frames are the last two below 2 MiB. -/
def bootSpaces : Spaces where
  machine :=
    { mem := identityKernel.machine.mem
      pmm :=
        { bitmap := List.replicate 63 0xFF ++ 0x3F :: List.replicate 64 0
          totalFrames := 1024
          freeFrames := 514 } }
  cr3 := fun _ ↦ 0

/-- Two address spaces are made. -/
def twoSpaces : Spaces := (bootSpaces.step (.newSpace 0 0x101000)).step (.newSpace 1 0x101000)

theorem bootSpaces_pmmOk : PmmOk bootSpaces.machine.pmm :=
  ⟨by decide +kernel, by decide, by decide⟩

theorem run_twoSpaces : Run Spaces.step Spaces.Admitted bootSpaces twoSpaces := by
  have hfirst : Run Spaces.step Spaces.Admitted bootSpaces
      (bootSpaces.step (.newSpace 0 0x101000)) := Run.refl.snoc (VmmOp.newSpace 0 0x101000) rfl
  exact hfirst.snoc (VmmOp.newSpace 1 0x101000) rfl

/-- The script page is mapped and taken out again. -/
theorem vmm_translate_algebra_script :
    let s := twoSpaces
    s.cr3 0 ≠ 0 ∧ ¬ s.LacksTable 0 0x100C0000000 6 ∧
      (s.step (.map 0 0x100C0000000 0x3FF123 6)).translate 0 0x100C0000000 = 0x3FF000 ∧
      (s.step (.unmap 0 0x100C0000000)).translate 0 0x100C0000000 = 0 := by
  have ht : twoSpaces.cr3 0 ≠ 0 := by decide +kernel
  have hlacks : ¬ twoSpaces.LacksTable 0 0x100C0000000 6 := by decide +kernel
  have hva : pml4i (0x100C0000000 : BitVec 64).toNat = 2 := by decide
  obtain ⟨hmap, -, hunmap⟩ := vmm_translate_algebra bootSpaces_pmmOk (fun _ ↦ rfl) run_twoSpaces ht
    hva
  refine ⟨ht, hlacks, ?_, hunmap⟩
  have hbase := (hmap 0x3FF123 6).2
  rw [if_neg hlacks] at hbase
  exact hbase

/-- Mapping the script page changes two more translations: that of the address `2 ^ 48` bytes
further on, and, in the other address space, that of the address of the frame that becomes the
first table of the walk. -/
theorem map_moves_alias :
    let s := twoSpaces
    let s' := s.step (.map 0 0x100C0000000 0x3FF000 6)
    Run Spaces.step Spaces.Admitted bootSpaces s ∧
      (0x1000100C0000000 : BitVec 64) >>> 12 ≠ (0x100C0000000 : BitVec 64) >>> 12 ∧
      pml4i (0x1000100C0000000 : BitVec 64).toNat = 2 ∧
      s.translate 0 0x1000100C0000000 = 0 ∧ s'.translate 0 0x1000100C0000000 = 0x3FF000 ∧
      s.translate 1 0x200000 = 0x300000 ∧ s'.translate 1 0x200000 = 0 :=
  ⟨run_twoSpaces, by decide, by decide, by decide +kernel, by decide +kernel, by decide +kernel,
    by decide +kernel⟩

end NoOsKernel.Mm
