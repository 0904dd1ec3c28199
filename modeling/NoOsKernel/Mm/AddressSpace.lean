import NoOsKernel.Mm.Vmm
import Mathlib.Logic.Function.Basic

/-!
# Who owns a frame

The frames in use belong to the page tables of the address spaces, to the pages they map, or to a
holder outside the page tables: the kernel function that has just taken the frame, or the record of
a model page that could not be mapped. `Owns` says that these claims are exclusive and marked in the
allocator, and the lemmas say what `vmm_map`, `vmm_unmap` and `vmm_free_address_space` do to them and
to the leaves of the address spaces.
-/

set_option autoImplicit false
set_option relaxedAutoImplicit false

namespace NoOsKernel.Mm

open Lib Lib.Radix

/-- Holders of frames outside the page tables: the function that took the frame, the script's first
page during a spawn, and the record of a model page of a task. -/
inductive Holder where
  | hand
  | scratch
  | model (t pg : ℕ)
  deriving DecidableEq

/-- A frame the allocator has given out; it never gives out frame `0`. -/
def InUse (p : Pmm) (f : ℕ) : Prop := f ≠ 0 ∧ Marked p f

/-- Exclusive ownership of frames by the trees below the roots and by the holders. -/
structure Owns (m : Machine) (root : ℕ → Option ℕ) (loose : Holder → Option ℕ) : Prop where
  pmm : PmmOk m.pmm
  excl : Exclusive (owners 4 2 pteFrame m.mem root loose) (InUse m.pmm)

/-- Leaves of the address spaces. -/
def IsLeaf (p : List ℕ) : Prop := TreePath 4 2 p ∧ p.length = 4

/-- The leaf entries are the same. -/
def SameLeaves (root : ℕ → Option ℕ) (m m' : Machine) : Prop :=
  ∀ t p, IsLeaf p → link pteFrame m'.mem (root t) p = link pteFrame m.mem (root t) p

variable {m m' : Machine} {root : ℕ → Option ℕ} {loose : Holder → Option ℕ}

theorem SameLeaves.refl : SameLeaves root m m := fun _ _ _ ↦ rfl

theorem SameLeaves.trans {m'' : Machine} (h : SameLeaves root m m')
    (h' : SameLeaves root m' m'') : SameLeaves root m m'' :=
  fun t p hp ↦ (h' t p hp).trans (h t p hp)

theorem isLeaf_pathOf {va : ℕ} (hva : IsUserVa va) : IsLeaf (pathOf va) :=
  ⟨treePath_pathOf hva, rfl⟩

namespace Owns

theorem lt_of_own (h : Owns m root loose) {o : (ℕ × List ℕ) ⊕ Holder} {f : ℕ}
    (ho : owners 4 2 pteFrame m.mem root loose o = some f) : f ≠ 0 ∧ f < 2 ^ 18 :=
  ⟨(h.excl.marked_of_own o f ho).1,
    (h.excl.marked_of_own o f ho).2.1.trans_le h.pmm.addressable⟩

theorem lt_of_loose (h : Owns m root loose) {e : Holder} {f : ℕ} (he : loose e = some f) :
    f ≠ 0 ∧ f < 2 ^ 18 :=
  h.lt_of_own (o := .inr e) he

theorem lt_of_link (h : Owns m root loose) {t i : ℕ} {p : List ℕ} {w : Word} {f : ℕ}
    (hp : TreePath 4 2 (i :: p)) (hlink : link pteFrame m.mem (root t) (i :: p) = some w)
    (hw : pteFrame w = some f) : f ≠ 0 ∧ f < 2 ^ 18 :=
  h.lt_of_own (o := .inl (t, i :: p)) (owners_node.mpr ⟨hp, by rw [node_cons, hlink]; exact hw⟩)

/-! ### Taking and giving back frames -/

/-- `pmm_alloc_frame` gives a frame to a holder that has none. -/
theorem alloc (h : Owns m root loose) {e : Holder} (he : loose e = none) :
    pmmAllocFrame m.pmm = (0, m.pmm) ∨
      ∃ f pmm, pmmAllocFrame m.pmm = (f * frameSize, pmm) ∧ f ≠ 0 ∧ f < 2 ^ 18 ∧
        Owns { m with pmm := pmm } root (Function.update loose e (some f)) := by
  rcases pmmAllocFrame_spec h.pmm with hfail | ⟨f, pmm, heq, hpos, hlt, hfresh, hok, -, hmark⟩
  · exact Or.inl hfail
  · refine Or.inr ⟨f, pmm, heq, hpos.ne', hlt.trans_le h.pmm.addressable, hok, ?_⟩
    refine h.excl.take (o := .inr e) (r := f) (fun hin ↦ hfresh hin.2) (fun o k ho ↦ ?_)
      (fun k hk ↦ ⟨hk.1, (hmark k).mpr (Or.inl hk.2)⟩) ⟨hpos.ne', (hmark f).mpr (Or.inr rfl)⟩
    cases o with
    | inl tp => exact Or.inl ho
    | inr e' =>
      by_cases heq : e' = e
      · subst heq
        have hk : Function.update loose e' (some f) e' = some k := ho
        rw [Function.update_self, Option.some.injEq] at hk
        exact Or.inr ⟨rfl, hk.symm⟩
      · have hk : Function.update loose e (some f) e' = some k := ho
        rw [Function.update_of_ne heq] at hk
        exact Or.inl hk

/-- Holders may drop their claims. -/
theorem drop (h : Owns m root loose) {loose' : Holder → Option ℕ}
    (hloose : ∀ e f, loose' e = some f → loose e = some f) : Owns m root loose' := by
  refine ⟨h.pmm, h.excl.mono (fun o k ho ↦ ?_) fun _ hk ↦ hk⟩
  cases o with
  | inl tp => exact ho
  | inr e => exact hloose e k ho

/-- `pmm_free_frame` takes a held frame back. -/
theorem freeLoose (h : Owns m root loose) {e : Holder} {f : ℕ} (he : loose e = some f) :
    Owns { m with pmm := pmmFreeFrame m.pmm (f * frameSize) } root
      (Function.update loose e none) := by
  have hdiv : f * frameSize / frameSize = f := Nat.mul_div_cancel _ (by decide)
  have hne : f * frameSize / frameSize ≠ 0 := by
    rw [hdiv]
    exact (h.lt_of_loose he).1
  obtain ⟨hok, -, hkeep⟩ := pmmFreeFrame_spec h.pmm hne
  rw [hdiv] at hkeep
  refine ⟨hok, h.excl.release (fun o ↦ o = .inr e) (fun o k ho ↦ ?_) fun k hk ↦ ?_⟩
  · cases o with
    | inl tp => exact ⟨ho, nofun⟩
    | inr e' =>
      have hk : Function.update loose e none e' = some k := ho
      by_cases heq : e' = e
      · rw [heq, Function.update_self] at hk
        exact absurd hk nofun
      · rw [Function.update_of_ne heq] at hk
        exact ⟨hk, fun hsame ↦ heq (Sum.inr.inj hsame)⟩
  · by_cases hkf : k = f
    · exact Or.inr ⟨.inr e, rfl, by rw [hkf]; exact he⟩
    · exact Or.inl ⟨hk.1, hkeep k hkf hk.2⟩

/-- More marks do no harm. -/
theorem mono_pmm (h : Owns m root loose) {pmm : Pmm} (hok : PmmOk pmm)
    (hmark : ∀ k, Marked m.pmm k → Marked pmm k) : Owns { m with pmm := pmm } root loose :=
  ⟨hok, h.excl.mono (fun _ _ ho ↦ ho) fun k hk ↦ ⟨hk.1, hmark k hk.2⟩⟩

/-- Memory may change outside the tables. -/
theorem write (h : Owns m root loose) {mem' : ℕ → Page}
    (hmem : ∀ g, IsTable 4 2 pteFrame m.mem root g → mem' g = m.mem g) :
    Owns { m with mem := mem' } root loose ∧ SameLeaves root m { m with mem := mem' } := by
  refine ⟨⟨h.pmm, ?_⟩, fun t p hp ↦ link_congr hmem hp.1⟩
  rw [owners_congr hmem]
  exact h.excl

/-- A held frame may be filled. -/
theorem fillLoose (h : Owns m root loose) {e : Holder} {f : ℕ} (he : loose e = some f)
    (page : Page) :
    Owns (m.setPage (f * frameSize) page) root loose ∧
      SameLeaves root m (m.setPage (f * frameSize) page) := by
  refine h.write fun g hg ↦ if_neg fun heq ↦ ?_
  rw [Nat.mul_div_cancel _ (by decide : 0 < frameSize)] at heq
  exact not_isTable_of_loose h.excl he (heq ▸ hg)

end Owns

/-! ### Fresh frames -/

/-- A frame is fetched for a page: it was free, it has been filled when there was something to fill
it with, and the rest of memory is as it was. -/
structure Fetched (m m₁ : Machine) (f : ℕ) (fill : Option Page) : Prop where
  alloc : pmmAllocFrame m.pmm = (f * frameSize, m₁.pmm)
  small : f < 2 ^ 18
  fresh : ¬ Marked m.pmm f
  mine : m₁.mem f = fill.getD (m.mem f)
  others : ∀ g, g ≠ f → m₁.mem g = m.mem g

/-- No table changes when a frame is fetched. -/
theorem Fetched.tables {m₁ : Machine} {f : ℕ} {fill : Option Page} (h : Fetched m m₁ f fill)
    (hown : Owns m root loose) {g : ℕ} (hg : IsTable 4 2 pteFrame m.mem root g) :
    m₁.mem g = m.mem g := by
  refine h.others g ?_
  rintro rfl
  exact not_isTable_of_not_marked hown.excl (fun hin ↦ h.fresh hin.2) hg

/-- Mapping a fresh page fetches a frame and maps it. -/
theorem Owns.mapFresh (h : Owns m root loose) {e : Holder} (he : loose e = none) (cr3 va : ℕ)
    (fill : Option Page) (flags : BitVec 8) :
    Mm.mapFresh m cr3 va fill flags = .error m ∨
      ∃ f m₁, Mm.mapFresh m cr3 va fill flags =
          .ok (f * frameSize, vmmMap m₁ cr3 va (f * frameSize) flags) ∧
        Fetched m m₁ f fill ∧ Owns m₁ root (Function.update loose e (some f)) ∧
          SameLeaves root m m₁ := by
  have hdiv : ∀ v, v * frameSize / frameSize = v := fun v ↦ Nat.mul_div_cancel v (by decide)
  rw [Mm.mapFresh]
  rcases pmmAllocFrame_spec h.pmm with hfail | ⟨f, pmm, halloc, hpos, hlt, hfresh, -, -, -⟩
  · left
    simp only [hfail, if_pos]
  rcases h.alloc he with hfail | ⟨f', pmm', heq, -, hsmall, htaken⟩
  · rw [hfail, Prod.mk.injEq] at halloc
    exact absurd halloc.1.symm (Nat.mul_ne_zero hpos.ne' (by decide))
  rw [heq, Prod.mk.injEq] at halloc
  obtain ⟨hff, rfl⟩ := halloc
  obtain rfl : f' = f := Nat.eq_of_mul_eq_mul_right (by decide : 0 < frameSize) hff
  right
  simp only [heq, if_neg (Nat.mul_ne_zero hpos.ne' (by decide : frameSize ≠ 0))]
  refine ⟨f', _, rfl, ?_⟩
  cases fill with
  | none => exact ⟨⟨heq, hsmall, hfresh, rfl, fun _ _ ↦ rfl⟩, htaken, SameLeaves.refl⟩
  | some page =>
    refine ⟨⟨heq, hsmall, hfresh, if_pos (hdiv f').symm, fun g hg ↦ if_neg (by rwa [hdiv])⟩, ?_⟩
    exact htaken.fillLoose (Function.update_self ..) page

/-! ### Mapping -/

/-- A table slot of the walk, as a write of the radix tree. -/
theorem slotWrite_setWord {t f i : ℕ} {p : List ℕ} {w : Word}
    (hp : TreePath 4 2 (i :: p)) (hnode : node pteFrame m.mem (root t) p = some f)
    (hbelow : p.length + 1 = 4 ∨ (node pteFrame m.mem (root t) (i :: p) = none ∧
      ∀ v, pteFrame w = some v → ∀ j, pteFrame ((m.setWord (f * frameSize) i w).mem v j) = none)) :
    SlotWrite 4 2 pteFrame m.mem (m.setWord (f * frameSize) i w).mem root t i p w := by
  have hdiv : f * frameSize / frameSize = f := Nat.mul_div_cancel _ (by decide)
  refine ⟨hp, ⟨f, hnode, ?_, fun g j _ hne ↦ ?_⟩, hbelow⟩
  · exact if_pos ⟨hdiv.symm, rfl⟩
  · exact if_neg fun heq ↦ hne ⟨heq.1.trans hdiv, heq.2⟩

/-- Writing a slot above the leaves leaves the leaves alone. -/
theorem sameLeaves_of_slotWrite (h : Apart 4 2 pteFrame m.mem root) {t i : ℕ} {p : List ℕ} {w : Word}
    {mem' : ℕ → Page} (hw : SlotWrite 4 2 pteFrame m.mem mem' root t i p w) (hlen : p.length < 3) :
    ∀ t' q, IsLeaf q → link pteFrame mem' (root t') q = link pteFrame m.mem (root t') q := by
  intro t' q hq
  obtain ⟨hpath, hfour⟩ := hq
  cases q with
  | nil => exact absurd hfour (by decide)
  | cons j q =>
    rw [link_write hw h hpath, if_neg ?_]
    rintro ⟨-, heq⟩
    rw [heq, List.length_cons] at hfour
    omega

/-- A fresh frame becomes an empty table below slot `i` of the table at path `p`. -/
structure Linked (m m' : Machine) (root : ℕ → Option ℕ) (t i : ℕ) (p : List ℕ) (v : ℕ) : Prop where
  fresh : ¬ Marked m.pmm v
  pos : v ≠ 0
  pmm : PmmOk m'.pmm
  marks : ∀ k, Marked m'.pmm k ↔ Marked m.pmm k ∨ k = v
  slot : ∃ w, pteFrame w = some v ∧ SlotWrite 4 2 pteFrame m.mem m'.mem root t i p w

/-- One level of the walk of `vmm_map`: the table is there, or there is none, and then no frame is
left, or a fresh one becomes the table. -/
theorem nextTable_cases (hpmm : PmmOk m.pmm)
    (htables : ∀ g, IsTable 4 2 pteFrame m.mem root g → Marked m.pmm g) {t f i : ℕ} {p : List ℕ}
    {flags : BitVec 8} (hflags : flags.toNat % 2 = 1) (hp : TreePath 4 2 (i :: p))
    (hnode : node pteFrame m.mem (root t) p = some f) :
    (nextTable m (f * frameSize) i flags = (none, m) ∧
        node pteFrame m.mem (root t) (i :: p) = none) ∨
      (∃ v, nextTable m (f * frameSize) i flags = (some (v * frameSize), m) ∧
        node pteFrame m.mem (root t) (i :: p) = some v) ∨
      ∃ v m', nextTable m (f * frameSize) i flags = (some (v * frameSize), m') ∧
        Linked m m' root t i p v := by
  have hdiv : f * frameSize / frameSize = f := Nat.mul_div_cancel _ (by decide)
  rw [nextTable]
  split_ifs with hpresent
  · -- the table is there
    refine Or.inr (Or.inl ⟨pteAddr (word m.mem (f * frameSize) i) / frameSize,
      by rw [pteAddr_div_mul], ?_⟩)
    rw [node, hnode, Option.bind_some, ← pteFrame_of_present hpresent, word, hdiv]
  · have hnone : node pteFrame m.mem (root t) (i :: p) = none := by
      rw [node, hnode, Option.bind_some, pteFrame, if_neg (by rwa [word, hdiv] at hpresent)]
    rcases pmmAllocFrame_spec hpmm with hfail | ⟨v, pmm, heq, hpos, hlt, hfresh, hok, -, hmark⟩
    · exact Or.inl ⟨by simp only [ptNew, hfail, if_pos], hnone⟩
    · have hv : v < 2 ^ 18 := hlt.trans_le hpmm.addressable
      have hvdiv : v * frameSize / frameSize = v := Nat.mul_div_cancel _ (by decide)
      have hvne : v * frameSize ≠ 0 := Nat.mul_ne_zero hpos.ne' (by decide)
      have hnotTable : ¬ IsTable 4 2 pteFrame m.mem root v := fun hin ↦ hfresh (htables v hin)
      have hvf : v ≠ f := fun hvf ↦ hnotTable ⟨t, p, hp.tail, hp.length_tail, hvf ▸ hnode⟩
      have hframe := pteFrame_tableEntry hv hflags
      -- the new table is cleared, and its entry is the one word written in a table
      have hw : SlotWrite 4 2 pteFrame m.mem
          ((Machine.setPage { m with pmm := pmm } (v * frameSize) fun _ ↦ 0).setWord
            (f * frameSize) i (tableEntry (v * frameSize) flags)).mem root t i p
          (tableEntry (v * frameSize) flags) := by
        refine ⟨hp, ⟨f, hnode, if_pos ⟨hdiv.symm, rfl⟩, fun g j hg hne ↦ ?_⟩,
          Or.inr ⟨hnone, fun v' hv' j ↦ ?_⟩⟩
        · have hgv : g ≠ v := fun hgv ↦ hnotTable (hgv ▸ hg)
          simp only [Machine.setWord, Machine.setPage, hdiv, hvdiv, if_neg hne, if_neg hgv]
        · rw [hframe, Option.some.injEq] at hv'
          have hne : ¬ (v = f ∧ j = i) := fun hsame ↦ hvf hsame.1
          simp only [← hv', Machine.setWord, Machine.setPage, hdiv, hvdiv, if_neg hne, if_pos,
            pteFrame_zero]
      refine Or.inr (Or.inr ⟨v, (Machine.setPage { m with pmm := pmm } (v * frameSize)
        fun _ ↦ 0).setWord (f * frameSize) i (tableEntry (v * frameSize) flags), ?_,
        hfresh, hpos.ne', hok, hmark, _, hframe, hw⟩)
      have hslot : word ((Machine.setPage { m with pmm := pmm } (v * frameSize) fun _ ↦ 0).setWord
          (f * frameSize) i (tableEntry (v * frameSize) flags)).mem (f * frameSize) i =
          tableEntry (v * frameSize) flags := if_pos ⟨rfl, rfl⟩
      rw [pteFrame_of_present (present_tableEntry hv hflags), Option.some.injEq] at hframe
      simp only [ptNew, heq, if_neg hvne]
      rw [hslot, ← pteAddr_div_mul, hframe]

/-- Tables are marked. -/
theorem Owns.marked_of_isTable (h : Owns m root loose) {g : ℕ}
    (hg : IsTable 4 2 pteFrame m.mem root g) : Marked m.pmm g := by
  obtain ⟨t, p, hp, -, hnode⟩ := hg
  exact (h.excl.marked_of_own (.inl (t, p)) g (owners_node.mpr ⟨hp, hnode⟩)).2

/-- One level of the walk of `vmm_map`: it fails and changes nothing, or arrives at the next table,
which it may have linked. -/
theorem nextTable_spec (h : Owns m root loose) {t f i : ℕ} {p : List ℕ} {flags : BitVec 8}
    (hflags : flags.toNat % 2 = 1) (hp : TreePath 4 2 (i :: p)) (hlen : p.length < 3)
    (hnode : node pteFrame m.mem (root t) p = some f) :
    nextTable m (f * frameSize) i flags = (none, m) ∨
      ∃ v m', nextTable m (f * frameSize) i flags = (some (v * frameSize), m') ∧
        Owns m' root loose ∧ SameLeaves root m m' ∧
        node pteFrame m'.mem (root t) (i :: p) = some v := by
  rcases nextTable_cases h.pmm (fun _ hg ↦ h.marked_of_isTable hg) hflags hp hnode with
    ⟨hfail, -⟩ | ⟨v, heq, hthere⟩ | ⟨v, m', heq, hlinked⟩
  · exact Or.inl hfail
  · exact Or.inr ⟨v, m, heq, h, SameLeaves.refl, hthere⟩
  · obtain ⟨w, hw, hslot⟩ := hlinked.slot
    refine Or.inr ⟨v, m', heq, ⟨hlinked.pmm, ?_⟩,
      sameLeaves_of_slotWrite (apart_of_exclusive h.excl) hslot hlen, ?_⟩
    · exact exclusive_link hslot h.excl hw (fun hin ↦ hlinked.fresh hin.2)
        (fun k hk ↦ ⟨hk.1, (hlinked.marks k).mpr (Or.inl hk.2)⟩)
        ⟨hlinked.pos, (hlinked.marks v).mpr (Or.inr rfl)⟩
    · rw [node_write hslot (apart_of_exclusive h.excl) hp, if_pos ⟨rfl, rfl⟩, hw]

/-- The walk of `vmm_map` to the page table of an address, `none` when a table cannot be made. -/
def mapWalk (m : Machine) (cr3 va : ℕ) (flags : BitVec 8) : Option ℕ × Machine :=
  match nextTable m cr3 (pml4i va) (tableFlags flags) with
  | (none, m) => (none, m)
  | (some pdpt, m) =>
    match nextTable m pdpt (pdpti va) (tableFlags flags) with
    | (none, m) => (none, m)
    | (some pd, m) => nextTable m pd (pdi va) (tableFlags flags)

theorem vmmMap_eq_mapWalk (m : Machine) (cr3 va paddr : ℕ) (flags : BitVec 8) :
    vmmMap m cr3 va paddr flags =
      match mapWalk m cr3 va flags with
      | (none, m') => m'
      | (some pt, m') => m'.setWord pt (pti va) (leafEntry paddr flags) := by
  rw [vmmMap, mapWalk]
  rcases nextTable m cr3 (pml4i va) (tableFlags flags) with ⟨- | pdpt, m₁⟩
  · rfl
  rcases hpd : nextTable m₁ pdpt (pdpti va) (tableFlags flags) with ⟨- | pd, m₂⟩
  · simp only [hpd]
  rcases hpt : nextTable m₂ pd (pdi va) (tableFlags flags) with ⟨- | pt, m₃⟩
  · simp only [hpd, hpt]
  · simp only [hpd, hpt]

/-- A walk that finds its tables makes none. -/
theorem mapWalk_of_walkPt {cr3 va pt : ℕ} (hwalk : walkPt m.mem cr3 va = some pt)
    (flags : BitVec 8) : mapWalk m cr3 va flags = (some pt, m) := by
  have hnext : ∀ {table idx a : ℕ}, descend m.mem table idx = some a →
      nextTable m table idx (tableFlags flags) = (some a, m) := by
    intro table idx a hdescend
    rw [descend] at hdescend
    split_ifs at hdescend with hpresent
    rw [nextTable, if_pos hpresent, hdescend]
  rw [walkPt, Option.bind_eq_some_iff] at hwalk
  obtain ⟨pdpt, hpdpt, hwalk⟩ := hwalk
  obtain ⟨pd, hpd, hpt⟩ := Option.bind_eq_some_iff.mp hwalk
  simp only [mapWalk, hnext hpdpt, hnext hpd, hnext hpt]

/-- What holds across every level of the walk holds across the walk. The leaves stay as they are,
and a walk that arrives is at the page table of the address. -/
theorem mapWalk_spec (I : Machine → Prop)
    (hlevel : ∀ {m : Machine} {t f i : ℕ} {p : List ℕ} {flags : BitVec 8}, I m →
      flags.toNat % 2 = 1 → TreePath 4 2 (i :: p) → p.length < 3 →
      node pteFrame m.mem (root t) p = some f →
      nextTable m (f * frameSize) i flags = (none, m) ∨
        ∃ v m', nextTable m (f * frameSize) i flags = (some (v * frameSize), m') ∧ I m' ∧
          SameLeaves root m m' ∧ node pteFrame m'.mem (root t) (i :: p) = some v)
    (h : I m) {t c va : ℕ} (ht : root t = some c) (hva : TreePath 4 2 (pathOf va))
    (flags : BitVec 8) :
    I (mapWalk m (c * frameSize) va flags).2 ∧
      SameLeaves root m (mapWalk m (c * frameSize) va flags).2 ∧
      ∀ pt, (mapWalk m (c * frameSize) va flags).1 = some pt → ∃ v, pt = v * frameSize ∧
        node pteFrame (mapWalk m (c * frameSize) va flags).2.mem (root t)
          [pdi va, pdpti va, pml4i va] = some v := by
  have hodd := tableFlags_odd flags
  have hroot : node pteFrame m.mem (root t) [] = some c := ht
  rw [mapWalk]
  rcases hlevel h hodd hva.tail.tail.tail (by simp) hroot with
    hfail | ⟨pdpt, m₁, heq₁, h₁, hsame₁, hnode₁⟩
  · rw [hfail]
    exact ⟨h, SameLeaves.refl, nofun⟩
  rw [heq₁]
  rcases hlevel h₁ hodd hva.tail.tail (by simp) hnode₁ with
    hfail | ⟨pd, m₂, heq₂, h₂, hsame₂, hnode₂⟩
  · simp only [hfail]
    exact ⟨h₁, hsame₁, nofun⟩
  simp only [heq₂]
  rcases hlevel h₂ hodd hva.tail (by simp) hnode₂ with
    hfail | ⟨pt, m₃, heq₃, h₃, hsame₃, hnode₃⟩
  · simp only [hfail]
    exact ⟨h₂, hsame₁.trans hsame₂, nofun⟩
  · simp only [heq₃]
    refine ⟨h₃, hsame₁.trans (hsame₂.trans hsame₃), fun pt' hpt' ↦ ⟨pt, ?_, hnode₃⟩⟩
    exact (Option.some.inj hpt').symm

/-- A leaf entry is written: the frame goes from its holder to the leaf. -/
theorem Owns.setLeaf (h : Owns m root loose) {t va f pt : ℕ} {e : Holder} (hva : IsUserVa va)
    (hnode : node pteFrame m.mem (root t) [pdi va, pdpti va, pml4i va] = some pt)
    (he : loose e = some f) (flags : BitVec 8) :
    Owns (m.setWord (pt * frameSize) (pti va) (leafEntry (f * frameSize) flags)) root
        (Function.update loose e none) ∧
      ∀ t' p, IsLeaf p →
        link pteFrame (m.setWord (pt * frameSize) (pti va) (leafEntry (f * frameSize) flags)).mem
            (root t') p =
          if t' = t ∧ p = pathOf va then some (leafEntry (f * frameSize) flags)
          else link pteFrame m.mem (root t') p := by
  have hpath := treePath_pathOf hva
  have hframe := pteFrame_leafEntry (h.lt_of_loose he).2 flags
  have hw := slotWrite_setWord (w := leafEntry (f * frameSize) flags) hpath hnode (Or.inl rfl)
  refine ⟨⟨h.pmm, exclusive_attach hw h.excl hframe he fun e' k hk ↦ ?_⟩, fun t' p hp ↦ ?_⟩
  · by_cases heq : e' = e
    · rw [heq, Function.update_self] at hk
      exact absurd hk nofun
    · rw [Function.update_of_ne heq] at hk
      exact ⟨heq, hk⟩
  · obtain ⟨hp, hfour⟩ := hp
    cases p with
    | nil => exact absurd hfour (by decide)
    | cons i p =>
      rw [link_write hw (apart_of_exclusive h.excl) hp, Option.filter_some, hframe]
      rfl

/-- `vmm_map` of a held frame: the frame stays with its holder when the walk runs out of frames, and
goes to the leaf otherwise. -/
theorem vmmMap_spec (h : Owns m root loose) {t c va f : ℕ} {e : Holder} (ht : root t = some c)
    (hva : IsUserVa va) (he : loose e = some f) (flags : BitVec 8) :
    (Owns (vmmMap m (c * frameSize) va (f * frameSize) flags) root loose ∧
      SameLeaves root m (vmmMap m (c * frameSize) va (f * frameSize) flags)) ∨
    (Owns (vmmMap m (c * frameSize) va (f * frameSize) flags) root
        (Function.update loose e none) ∧
      ∀ t' p, IsLeaf p →
        link pteFrame (vmmMap m (c * frameSize) va (f * frameSize) flags).mem (root t') p =
          if t' = t ∧ p = pathOf va then some (leafEntry (f * frameSize) flags)
          else link pteFrame m.mem (root t') p) := by
  have hpath := treePath_pathOf hva
  obtain ⟨h₃, hsame, harrive⟩ := mapWalk_spec (fun m ↦ Owns m root loose)
    (fun h ↦ nextTable_spec h) h ht hpath flags
  rw [vmmMap_eq_mapWalk]
  rcases hwalk : mapWalk m (c * frameSize) va flags with ⟨- | a, m₃⟩
  · rw [hwalk] at h₃ hsame
    exact Or.inl ⟨h₃, hsame⟩
  rw [hwalk] at h₃ hsame harrive
  obtain ⟨pt, rfl, hnode₃⟩ := harrive a rfl
  obtain ⟨h', hlinks⟩ := h₃.setLeaf hva hnode₃ he flags
  refine Or.inr ⟨h', fun t' p hp ↦ ?_⟩
  rw [hlinks t' p hp, hsame t' p hp]

/-! ### Unmapping -/

/-- `vmm_unmap` clears one leaf. -/
theorem vmmUnmap_leaves (h : Owns m root loose) {t c va : ℕ} (ht : root t = some c)
    (hva : IsUserVa va) : ∀ t' p, IsLeaf p →
      link pteFrame (vmmUnmap m (c * frameSize) va).mem (root t') p =
        if t' = t ∧ p = pathOf va then none else link pteFrame m.mem (root t') p := by
  intro t' p hp
  rw [vmmUnmap, walkPt_eq, ← ht]
  rcases hnode : node pteFrame m.mem (root t) [pdi va, pdpti va, pml4i va] with - | pt
  · rw [Option.map_none]
    split_ifs with hmine
    · rw [hmine.1, hmine.2, pathOf, link_eq_none, node, hnode, Option.bind_none]
    · rfl
  · have hw := slotWrite_setWord (w := 0) (treePath_pathOf hva) hnode (Or.inl rfl)
    obtain ⟨hp, hfour⟩ := hp
    cases p with
    | nil => exact absurd hfour (by decide)
    | cons i p =>
      rw [Option.map_some]
      exact link_write hw (apart_of_exclusive h.excl) hp

/-- Only the leaf is gone: the tables, the other leaves, and the frames that are no tables stay. -/
theorem vmmUnmap_nodes (h : Owns m root loose) {t c va : ℕ} (ht : root t = some c)
    (hva : IsUserVa va) :
    (∀ t' p, TreePath 4 2 p → node pteFrame (vmmUnmap m (c * frameSize) va).mem (root t') p =
        if t' = t ∧ p = pathOf va then none else node pteFrame m.mem (root t') p) ∧
      ∀ g, ¬ IsTable 4 2 pteFrame m.mem root g →
        (vmmUnmap m (c * frameSize) va).mem g = m.mem g := by
  rw [vmmUnmap, walkPt_eq, ← ht]
  rcases hnode : node pteFrame m.mem (root t) [pdi va, pdpti va, pml4i va] with - | pt
  · refine ⟨fun t' p _ ↦ ?_, fun _ _ ↦ rfl⟩
    rw [Option.map_none]
    split_ifs with hmine
    · rw [hmine.1, hmine.2, pathOf, node, hnode, Option.bind_none]
    · rfl
  · have hpath := treePath_pathOf hva
    have hw := slotWrite_setWord (w := 0) hpath hnode (Or.inl rfl)
    rw [Option.map_some]
    refine ⟨fun t' p hp ↦ node_write hw (apart_of_exclusive h.excl) hp, fun g hg ↦ ?_⟩
    have hne : g ≠ pt := by
      rintro rfl
      exact hg ⟨t, _, hpath.tail, hpath.length_tail, hnode⟩
    funext j
    refine if_neg fun hsame ↦ hne (hsame.1.trans ?_)
    exact Nat.mul_div_cancel _ (by decide)

/-- `vmm_unmap` keeps the claims of everyone else. -/
theorem vmmUnmap_owns (h : Owns m root loose) {t c va : ℕ} (ht : root t = some c)
    (hva : IsUserVa va) : Owns (vmmUnmap m (c * frameSize) va) root loose := by
  rw [vmmUnmap, walkPt_eq, ← ht]
  rcases hnode : node pteFrame m.mem (root t) [pdi va, pdpti va, pml4i va] with - | pt
  · exact h
  · have hw := slotWrite_setWord (w := 0) (treePath_pathOf hva) hnode (Or.inl rfl)
    exact ⟨h.pmm, exclusive_clear hw h.excl pteFrame_zero⟩

/-- `vmm_unmap` of a mapped page, whose frame is then freed. -/
theorem vmmUnmap_free (h : Owns m root loose) {t c va f : ℕ} {w : Word} (ht : root t = some c)
    (hva : IsUserVa va) (hlink : link pteFrame m.mem (root t) (pathOf va) = some w)
    (hframe : pteFrame w = some f) :
    Owns { vmmUnmap m (c * frameSize) va with pmm := pmmFreeFrame m.pmm (f * frameSize) }
      root loose := by
  have hdiv : f * frameSize / frameSize = f := Nat.mul_div_cancel _ (by decide)
  have hne : f * frameSize / frameSize ≠ 0 := by
    rw [hdiv]
    exact (h.lt_of_link (treePath_pathOf hva) hlink hframe).1
  obtain ⟨hok, -, hkeep⟩ := pmmFreeFrame_spec h.pmm hne
  rw [hdiv] at hkeep
  have hleaf : node pteFrame m.mem (root t) (pathOf va) = some f := by
    rw [pathOf, node_cons]
    rw [pathOf] at hlink
    rw [hlink]
    exact hframe
  refine ⟨hok, ?_⟩
  simp only [vmmUnmap, walkPt_eq, ← ht]
  rcases hnode : node pteFrame m.mem (root t) [pdi va, pdpti va, pml4i va] with - | pt
  · rw [pathOf, node, hnode] at hleaf
    cases hleaf
  · have hw := slotWrite_setWord (w := 0) (treePath_pathOf hva) hnode (Or.inl rfl)
    exact exclusive_clear_free hw h.excl pteFrame_zero hleaf
      fun k hkf hk ↦ ⟨hk.1, hkeep k hkf hk.2⟩

/-! ### Address spaces -/

/-- The frames of a table below a path are nodes of the tree. -/
theorem node_of_mem_tableFrames {mem : ℕ → Page} {r : Option ℕ} {p : List ℕ} {f a : ℕ}
    (hnode : node pteFrame mem r p = some f) (ha : a ∈ tableFrames mem (f * frameSize)) :
    ∃ i v, a = v * frameSize ∧ node pteFrame mem r (i :: p) = some v := by
  rw [tableFrames, List.mem_filterMap] at ha
  obtain ⟨i, -, hi⟩ := ha
  rw [descend_node hnode, Option.map_eq_some_iff] at hi
  obtain ⟨v, hv, rfl⟩ := hi
  exact ⟨i, v, rfl, hv⟩

/-- `vmm_free_address_space` frees nodes of the tree only. -/
theorem node_of_mem_spaceFrames {mem : ℕ → Page} {c a : ℕ}
    (ha : a ∈ spaceFrames mem (c * frameSize)) :
    ∃ p v, TreePath 4 2 p ∧ a = v * frameSize ∧ node pteFrame mem (some c) p = some v := by
  have hroot : node pteFrame mem (some c) [] = some c := rfl
  rw [spaceFrames, descend_node hroot] at ha
  rcases hpdpt : node pteFrame mem (some c) [2] with - | pdpt
  · simp [hpdpt] at ha
  simp only [hpdpt, Option.map_some, List.mem_append, List.mem_flatMap,
    List.mem_cons, List.not_mem_nil, or_false] at ha
  rcases ha with ⟨b, hb, hin⟩ | rfl | rfl
  · obtain ⟨i, pd, rfl, hpd⟩ := node_of_mem_tableFrames hpdpt hb
    rcases hin with ⟨b', hb', hin⟩ | rfl
    · obtain ⟨j, pt, rfl, hpt⟩ := node_of_mem_tableFrames hpd hb'
      rcases hin with hleaf | rfl
      · obtain ⟨l, v, rfl, hv⟩ := node_of_mem_tableFrames hpt hleaf
        exact ⟨_, v, ⟨by simp, Or.inr rfl⟩, rfl, hv⟩
      · exact ⟨_, pt, ⟨by simp, Or.inr rfl⟩, rfl, hpt⟩
    · exact ⟨_, pd, ⟨by simp, Or.inr rfl⟩, rfl, hpd⟩
  · exact ⟨_, pdpt, ⟨by simp, Or.inr rfl⟩, rfl, hpdpt⟩
  · exact ⟨[], c, ⟨by simp, Or.inl rfl⟩, rfl, rfl⟩

/-- `vmm_free_address_space` gives up one address space. -/
theorem vmmFreeAddressSpace_spec (h : Owns m root loose) {t c : ℕ} (ht : root t = some c) :
    Owns (vmmFreeAddressSpace m (c * frameSize)) (Function.update root t none) loose := by
  have hdiv : ∀ v, v * frameSize / frameSize = v := fun v ↦ Nat.mul_div_cancel v (by decide)
  have hpos : ∀ a ∈ spaceFrames m.mem (c * frameSize), a / frameSize ≠ 0 := by
    intro a ha
    obtain ⟨p, v, hp, rfl, hnode⟩ := node_of_mem_spaceFrames ha
    rw [hdiv]
    exact (h.lt_of_own (o := .inl (t, p)) (owners_node.mpr ⟨hp, by rw [ht]; exact hnode⟩)).1
  obtain ⟨hok, -, hkeep⟩ := foldl_pmmFreeFrame h.pmm _ hpos
  refine ⟨hok, exclusive_fell h.excl fun k hk ↦ ?_⟩
  rcases hkeep k hk.2 with hleft | ⟨a, ha, hak⟩
  · exact Or.inl ⟨hk.1, hleft⟩
  · obtain ⟨p, v, hp, rfl, hnode⟩ := node_of_mem_spaceFrames ha
    rw [hdiv] at hak
    exact Or.inr ⟨p, hp, by rw [ht, hnode, hak]⟩

/-- A fresh frame becomes the top table of an address space, empty but for its first entry. -/
structure Planted (m m' : Machine) (c : ℕ) : Prop where
  fresh : ¬ Marked m.pmm c
  pos : c ≠ 0
  pmm : PmmOk m'.pmm
  marks : ∀ k, Marked m'.pmm k ↔ Marked m.pmm k ∨ k = c
  same : ∀ g ≠ c, m'.mem g = m.mem g
  empty : ∀ i ≠ 0, m'.mem c i = 0

/-- `vmm_new_address_space` finds no frame, or makes a top table of a fresh one. -/
theorem vmmNewAddressSpace_cases (hpmm : PmmOk m.pmm) (bootPml4 : ℕ) :
    vmmNewAddressSpace m bootPml4 = (0, m) ∨
      ∃ c m', vmmNewAddressSpace m bootPml4 = (c * frameSize, m') ∧ Planted m m' c := by
  rcases pmmAllocFrame_spec hpmm with hfail | ⟨c, pmm, heq, hpos, -, hfresh, hok, -, hmark⟩
  · left
    simp only [vmmNewAddressSpace, hfail, if_pos]
  · have hdiv : c * frameSize / frameSize = c := Nat.mul_div_cancel _ (by decide)
    have hcne : c * frameSize ≠ 0 := Nat.mul_ne_zero hpos.ne' (by decide)
    right
    simp only [vmmNewAddressSpace, heq, if_neg hcne]
    refine ⟨c, _, rfl, hfresh, hpos.ne', hok, hmark, fun g hg ↦ ?_, fun i hi ↦ ?_⟩
    · funext j
      simp only [Machine.setWord, Machine.setPage, hdiv, hg, false_and, if_false]
    · simp only [Machine.setWord, Machine.setPage, hdiv, hi, and_false, if_false, if_true]

/-- `vmm_new_address_space` makes an address space without user pages. -/
theorem vmmNewAddressSpace_spec (h : Owns m root loose) (t bootPml4 : ℕ) :
    vmmNewAddressSpace m bootPml4 = (0, m) ∨
      ∃ c m', vmmNewAddressSpace m bootPml4 = (c * frameSize, m') ∧ c ≠ 0 ∧
        Owns m' (Function.update root t (some c)) loose ∧
        ∀ t' p, IsLeaf p → link pteFrame m'.mem (Function.update root t (some c) t') p =
          if t' = t then none else link pteFrame m.mem (root t') p := by
  rcases vmmNewAddressSpace_cases h.pmm bootPml4 with hfail | ⟨c, m', heq, hnew⟩
  · exact Or.inl hfail
  · have hfresh : ¬ InUse m.pmm c := fun hin ↦ hnew.fresh hin.2
    have htop : pteFrame (m'.mem c 2) = none := by
      rw [hnew.empty 2 (by decide)]
      exact pteFrame_zero
    refine Or.inr ⟨c, m', heq, hnew.pos, ⟨hnew.pmm, exclusive_plant h.excl hfresh hnew.same htop
      (fun k hk ↦ ⟨hk.1, (hnew.marks k).mpr (Or.inl hk.2)⟩)
      ⟨hnew.pos, (hnew.marks c).mpr (Or.inr rfl)⟩⟩, ?_⟩
    intro t' p hp
    split_ifs with ht'
    · obtain ⟨hpath, hfour⟩ := hp
      rw [ht', Function.update_self]
      cases p with
      | nil => exact absurd hfour (by decide)
      | cons i p => exact link_eq_none.mpr (node_of_empty_top htop hpath (List.cons_ne_nil i p))
    · rw [Function.update_of_ne ht']
      refine link_congr (fun g hg ↦ hnew.same g fun heq ↦ ?_) hp.1
      exact not_isTable_of_not_marked h.excl hfresh (heq ▸ hg)

end NoOsKernel.Mm
