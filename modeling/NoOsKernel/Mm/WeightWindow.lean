import NoOsKernel.Mm.Ownership
import NoOsKernel.Mm.SpawnFrames
import NoOsKernel.Trans.Bounds

/-!
# What the model window shows

The window of `model.c` on the weight blob of `trans.c`. The blob is a block of the kernel heap of
exactly `weights_bytes_of` bytes, and the window has the pages `trans_weight_pages` counts, rounded
up; `model_fault_in_page` copies a whole page. What a task reads in a page is therefore the blob up
to its end, and behind it what the kernel's memory holds: a page is a function of the blob alone
exactly when it ends within the blob.
-/

set_option autoImplicit false
set_option relaxedAutoImplicit false

namespace NoOsKernel.Mm

open Lib Lib.Radix

open NoOsKernel.Trans (TransState weightsBytesOf)

/-! ### The blob in memory -/

/-- `trans_weights`. -/
def transWeights (s : TransState) : ℕ := s.wblob

/-- `trans_weight_pages`. -/
def transWeightPages (s : TransState) : ℕ := (s.wbytes + 4095) % 2 ^ 64 / 4096 % 2 ^ 32

/-- `model_window_setup`. -/
def modelWindowSetup (k : Kernel) (s : TransState) : Kernel :=
  let p := transWeightPages s
  let p := if p < 1 then 1 else p
  let p := if userModelMax / 4096 < p then userModelMax / 4096 else p
  { k with winPages := p }

/-- The byte of physical memory at an address. -/
def byteAt (mem : ℕ → Page) (addr : ℕ) : Byte :=
  pageByte (mem (addr / frameSize)) (addr % frameSize)

/-- The page with the given bytes. -/
def pageOf (bytes : ℕ → Byte) : Page := fun i ↦
  (List.range 8).foldl (fun w j ↦ setByte w j (bytes (8 * i + j))) 0

/-- The bytes `model_fault_in_page` copies into the frame of a page. -/
def weightsPage (mem : ℕ → Page) (s : TransState) (pg : ℕ) : Page :=
  pageOf fun off ↦ byteAt mem (transWeights s + pg * 4096 + off)

/-- The kernel with the weights where `trans.c` keeps them. -/
def Kernel.serving (k : Kernel) (s : TransState) : Kernel :=
  { k with weights := weightsPage k.machine.mem s }

/-- The kernel after `model_fault_in_page`. -/
def afterFaultIn (k : Kernel) (s : TransState) (i pg : ℕ) : Kernel :=
  (modelFaultInPage (k.serving s) i pg).2

theorem pageByte_pageOf (bytes : ℕ → Byte) (off : ℕ) : pageByte (pageOf bytes) off = bytes off := by
  have hpacked : ∀ (f : ℕ → Byte) (n j : ℕ), n ≤ 8 → j < n →
      byteOf ((List.range n).foldl (fun w j ↦ setByte w j (f j)) 0) j = f j := by
    intro f n
    induction n with
    | zero => exact fun j _ hj ↦ absurd hj (Nat.not_lt_zero j)
    | succ n ih =>
      intro j hn hj
      rw [List.range_succ, List.foldl_append, List.foldl_cons, List.foldl_nil,
        byteOf_setByte _ (by omega) (by omega)]
      by_cases hlast : j = n
      · rw [if_pos hlast, hlast]
      · rw [if_neg hlast, ih j (by omega) (by omega)]
  have hsplit : 8 * (off / 8) + off % 8 = off := Nat.div_add_mod off 8
  have hbyte := hpacked (fun j ↦ bytes (8 * (off / 8) + j)) 8 (off % 8) le_rfl
    (Nat.mod_lt off (by decide))
  rw [hsplit] at hbyte
  exact hbyte

/-! ### What a walk leaves alone -/

section Walk

variable {m m' : Machine} {root : ℕ → Option ℕ} {loose : Holder → Option ℕ} {t c f g i va : ℕ}
  {p : List ℕ} {e : Holder}

/-- A level of the walk does not write a held frame. -/
theorem nextTable_loose (h : Owns m root loose) (he : loose e = some g)
    (hp : TreePath 4 2 (i :: p)) (hnode : node pteFrame m.mem (root t) p = some f)
    (flags : BitVec 8) : (nextTable m (f * frameSize) i flags).2.mem g = m.mem g := by
  have htable : g ≠ f := by
    rintro rfl
    exact not_isTable_of_loose h.excl he ⟨t, p, hp.tail, hp.length_tail, hnode⟩
  have hmarked : InUse m.pmm g := h.excl.marked_of_own (.inr e) g he
  have hnext : g ≠ nextFrame m.pmm := by
    rintro rfl
    rcases pmmAllocFrame_spec h.pmm with hfail | ⟨f', p', halloc, -, -, hfresh, -⟩
    · exact hmarked.1 (by rw [nextFrame, hfail, Nat.zero_div])
    · rw [nextFrame, halloc, Nat.mul_div_cancel _ (by decide : 0 < frameSize)] at hmarked
      exact hfresh hmarked.2
  rw [nextTable_snd]
  split_ifs
  · rfl
  · refine (ptNew_spec m (f * frameSize) i flags).2.2 g ?_ hnext
    rwa [Nat.mul_div_cancel _ (by decide : 0 < frameSize)]

/-- `vmm_map` does not write a held frame. -/
theorem vmmMap_loose (h : Owns m root loose) (ht : root t = some c)
    (hva : TreePath 4 2 (pathOf va)) (he : loose e = some g) (paddr : ℕ) (flags : BitVec 8) :
    (vmmMap m (c * frameSize) va paddr flags).mem g = m.mem g := by
  obtain ⟨⟨h', hkept⟩, -, harrive⟩ := mapWalk_spec
    (fun m' ↦ Owns m' root loose ∧ m'.mem g = m.mem g)
    (fun {m' t f i p flags} hm hflags hp hlen hnode ↦ by
      have hkept := nextTable_loose hm.1 he hp hnode flags
      rcases nextTable_spec hm.1 hflags hp hlen hnode with
        hfail | ⟨v, m'', heq, hown, hsame, hnew⟩
      · exact Or.inl hfail
      · rw [heq] at hkept
        exact Or.inr ⟨v, m'', heq, ⟨hown, hkept.trans hm.2⟩, hsame, hnew⟩)
    ⟨h, rfl⟩ ht hva flags
  rw [vmmMap_eq_mapWalk]
  rcases hwalk : mapWalk m (c * frameSize) va flags with ⟨- | a, m₃⟩
  · rw [hwalk] at hkept
    exact hkept
  · rw [hwalk] at h' hkept harrive
    obtain ⟨pt, rfl, hnode⟩ := harrive a rfl
    refine Eq.trans ?_ hkept
    funext j
    refine if_neg fun hwritten ↦ not_isTable_of_loose h'.excl he ?_
    rw [Nat.mul_div_cancel _ (by decide : 0 < frameSize)] at hwritten
    exact ⟨t, [pdi va, pdpti va, pml4i va], hva.tail, by simp, hwritten.1 ▸ hnode⟩

/-- A level of the walk does the same on two memories that differ outside its table. -/
theorem nextTable_congr {differ : ℕ → Prop} (hpmm : m'.pmm = m.pmm)
    (hmem : ∀ g, ¬ differ g → m'.mem g = m.mem g) {table : ℕ}
    (htable : ¬ differ (table / frameSize)) (idx : ℕ) (flags : BitVec 8) :
    (nextTable m' table idx flags).1 = (nextTable m table idx flags).1 ∧
      (nextTable m' table idx flags).2.pmm = (nextTable m table idx flags).2.pmm ∧
      ∀ g, ¬ differ g →
        (nextTable m' table idx flags).2.mem g = (nextTable m table idx flags).2.mem g := by
  have hword : ∀ j, word m'.mem table j = word m.mem table j := by
    intro j
    rw [word, word, hmem _ htable]
  have hnew : (ptNew m' table idx flags).1 = (ptNew m table idx flags).1 ∧
      (ptNew m' table idx flags).2.pmm = (ptNew m table idx flags).2.pmm ∧
      ∀ g, ¬ differ g → (ptNew m' table idx flags).2.mem g = (ptNew m table idx flags).2.mem g := by
    rw [ptNew, ptNew, hpmm]
    split_ifs
    · exact ⟨rfl, rfl, hmem⟩
    · refine ⟨rfl, rfl, fun g hg ↦ ?_⟩
      funext j
      simp only [Machine.setWord, Machine.setPage, hmem g hg]
  simp only [nextTable, hword]
  by_cases hpresent : present (word m.mem table idx) = true
  · simp only [if_pos hpresent]
    exact ⟨trivial, hpmm, hmem⟩
  · simp only [if_neg hpresent, hnew.1]
    by_cases hfail : (ptNew m table idx flags).1 = 0
    · simp only [if_pos hfail]
      exact ⟨trivial, hnew.2⟩
    · simp only [if_neg hfail, word, hnew.2.2 _ htable]
      exact ⟨trivial, hnew.2⟩

/-- The walk gets as far on two memories that differ outside the tables. -/
theorem mapWalk_congr (differ : ℕ → Prop) (h : Owns m root loose)
    (hdiffer : ∀ m₁ : Machine, Owns m₁ root loose →
      ∀ g, IsTable 4 2 pteFrame m₁.mem root g → ¬ differ g)
    (hpmm : m'.pmm = m.pmm) (hmem : ∀ g, ¬ differ g → m'.mem g = m.mem g) (ht : root t = some c)
    (hva : TreePath 4 2 (pathOf va)) (flags : BitVec 8) :
    (mapWalk m' (c * frameSize) va flags).1 = (mapWalk m (c * frameSize) va flags).1 := by
  have hlevel : ∀ {m m' : Machine} {i f : ℕ} {p : List ℕ}, Owns m root loose →
      TreePath 4 2 (i :: p) → p.length < 3 → node pteFrame m.mem (root t) p = some f →
      m'.pmm = m.pmm → (∀ g, ¬ differ g → m'.mem g = m.mem g) →
      (∃ m₁ m₁', nextTable m (f * frameSize) i (tableFlags flags) = (none, m₁) ∧
        nextTable m' (f * frameSize) i (tableFlags flags) = (none, m₁')) ∨
      ∃ v m₁ m₁', nextTable m (f * frameSize) i (tableFlags flags) = (some (v * frameSize), m₁) ∧
        nextTable m' (f * frameSize) i (tableFlags flags) = (some (v * frameSize), m₁') ∧
        Owns m₁ root loose ∧ node pteFrame m₁.mem (root t) (i :: p) = some v ∧
        m₁'.pmm = m₁.pmm ∧ ∀ g, ¬ differ g → m₁'.mem g = m₁.mem g := by
    intro m m' i f p h hp hlen hnode hpmm hmem
    have htable : ¬ differ (f * frameSize / frameSize) := by
      rw [Nat.mul_div_cancel _ (by decide : 0 < frameSize)]
      exact hdiffer m h f ⟨t, p, hp.tail, hp.length_tail, hnode⟩
    obtain ⟨hout, hpmm', hmem'⟩ := nextTable_congr hpmm hmem htable i (tableFlags flags)
    rcases heq' : nextTable m' (f * frameSize) i (tableFlags flags) with ⟨out, m₁'⟩
    rw [heq'] at hout hpmm' hmem'
    rcases nextTable_spec h (tableFlags_odd flags) hp hlen hnode with
      hfail | ⟨v, m₁, heq, hown, -, hnew⟩
    · rw [hfail] at hout
      exact Or.inl ⟨m, m₁', hfail, Prod.ext hout rfl⟩
    · rw [heq] at hout hpmm' hmem'
      exact Or.inr ⟨v, m₁, m₁', heq, Prod.ext hout rfl, hown, hnew, hpmm', hmem'⟩
  rw [mapWalk, mapWalk]
  rcases hlevel h hva.tail.tail.tail (by simp) (show node pteFrame m.mem (root t) [] = some c
    from ht) hpmm hmem with ⟨m₁, m₁', hfail, hfail'⟩ | ⟨pdpt, m₁, m₁', heq₁, heq₁', h₁, hnode₁, hpmm₁, hmem₁⟩
  · rw [hfail, hfail']
  rw [heq₁, heq₁']
  rcases hlevel h₁ hva.tail.tail (by simp) hnode₁ hpmm₁ hmem₁ with
    ⟨m₂, m₂', hfail, hfail'⟩ | ⟨pd, m₂, m₂', heq₂, heq₂', h₂, hnode₂, hpmm₂, hmem₂⟩
  · simp only [hfail, hfail']
  simp only [heq₂, heq₂']
  rcases hlevel h₂ hva.tail (by simp) hnode₂ hpmm₂ hmem₂ with
    ⟨m₃, m₃', hfail, hfail'⟩ | ⟨pt, m₃, m₃', heq₃, heq₃', -⟩
  · rw [hfail, hfail']
  · rw [heq₃, heq₃']

/-- `vmm_map` makes a leaf when its walk arrives. -/
theorem vmmMap_link (h : Owns m root loose) (ht : root t = some c) (hva : IsUserVa va)
    (he : loose e = some f) (flags : BitVec 8)
    (hnone : link pteFrame m.mem (root t) (pathOf va) = none) :
    link pteFrame (vmmMap m (c * frameSize) va (f * frameSize) flags).mem (root t) (pathOf va) =
      (mapWalk m (c * frameSize) va flags).1.map fun _ ↦ leafEntry (f * frameSize) flags := by
  obtain ⟨h₃, hsame, harrive⟩ := mapWalk_spec (fun m ↦ Owns m root loose)
    (fun h ↦ nextTable_spec h) h ht (treePath_pathOf hva) flags
  rw [vmmMap_eq_mapWalk]
  rcases hwalk : mapWalk m (c * frameSize) va flags with ⟨- | a, m₃⟩
  · rw [hwalk] at hsame
    rw [hsame t _ (isLeaf_pathOf hva), hnone]
    rfl
  · rw [hwalk] at h₃ harrive
    obtain ⟨pt, rfl, hnode₃⟩ := harrive a rfl
    obtain ⟨-, hlinks⟩ := h₃.setLeaf hva hnode₃ he flags
    rw [hlinks t _ (isLeaf_pathOf hva), if_pos ⟨rfl, rfl⟩]
    rfl

end Walk

/-! ### A page comes in -/

/-- Memory is owned, and a task has an address space there. -/
def HasSpace (k : Kernel) (i : ℕ) : Prop :=
  ∃ (root : ℕ → Option ℕ) (loose : Holder → Option ℕ) (t c : ℕ), Owns k.machine root loose ∧
    loose .hand = none ∧ root t = some c ∧ (k.tasks i).cr3 = c * frameSize

/-- The blob is in memory and the window is set up for it, and `model_fault_in_page` maps a page of
the window that was not there. -/
structure ComesIn (k : Kernel) (s : TransState) (i pg : ℕ) : Prop where
  space : HasSpace k i
  blob : ∀ j < s.wbytes, byteAt k.machine.mem (transWeights s + j) = s.blob j
  window : k.winPages = (modelWindowSetup k s).winPages
  page : pg < k.winPages
  absent : leafOf k.machine.mem (k.tasks i).cr3 (modelVa pg) = none
  mapped : leafOf (afterFaultIn k s i pg).machine.mem (k.tasks i).cr3 (modelVa pg) ≠ none

/-- The size of the window is a matter of the blob. -/
theorem winPages_modelWindowSetup (k k' : Kernel) (s : TransState) :
    (modelWindowSetup k s).winPages = (modelWindowSetup k' s).winPages := rfl

theorem winPages_le (k : Kernel) (s : TransState) :
    (modelWindowSetup k s).winPages ≤ modelPages ∧
      (modelWindowSetup k s).winPages ≤ max 1 ((s.wbytes + 4095) / 4096) := by
  have hwords : transWeightPages s ≤ (s.wbytes + 4095) / 4096 :=
    (Nat.mod_le _ _).trans (Nat.div_le_div_right (Nat.mod_le _ _))
  have hpages : 1 ≤ modelPages := by decide
  simp only [modelWindowSetup, show userModelMax / 4096 = modelPages from rfl]
  split_ifs <;> omega

theorem cr3_afterFaultIn (k : Kernel) (s : TransState) (i pg : ℕ) :
    ((afterFaultIn k s i pg).tasks i).cr3 = (k.tasks i).cr3 := by
  rw [afterFaultIn, modelFaultInPage]
  rcases mapFresh (k.serving s).machine ((k.serving s).tasks i).cr3 (modelVa pg)
    (some ((k.serving s).weights pg)) vmmUser with m | ⟨frame, m⟩
  · rfl
  · simp only [Kernel.setTask, Function.update_self]
    rfl

section Task

variable {k : Kernel} {s : TransState} {i pg c : ℕ} {root : ℕ → Option ℕ}
  {loose : Holder → Option ℕ}

/-- What `model_fault_in_page` does to memory: there is no frame, or it fills a fresh one from where
the weights are and has `vmm_map` map it. -/
theorem machine_afterFaultIn (hown : Owns k.machine root loose) (hhand : loose .hand = none)
    (hcr3 : (k.tasks i).cr3 = c * frameSize) (s : TransState) (pg : ℕ) :
    ((pmmAllocFrame k.machine.pmm).1 = 0 ∧ (afterFaultIn k s i pg).machine = k.machine) ∨
      ∃ f m₁, Fetched k.machine m₁ f (some (weightsPage k.machine.mem s pg)) ∧
        Owns m₁ root (Function.update loose .hand (some f)) ∧ SameLeaves root k.machine m₁ ∧
        (afterFaultIn k s i pg).machine =
          vmmMap m₁ (c * frameSize) (modelVa pg) (f * frameSize) vmmUser := by
  simp only [afterFaultIn, modelFaultInPage, show (k.serving s).machine = k.machine from rfl,
    show (k.serving s).tasks = k.tasks from rfl,
    show (k.serving s).weights = weightsPage k.machine.mem s from rfl, hcr3]
  rcases hown.mapFresh hhand (c * frameSize) (modelVa pg)
    (some (weightsPage k.machine.mem s pg)) vmmUser with
    hfail | ⟨f, m₁, heq, hfetched, hown₁, hsame⟩
  · have hzero : (pmmAllocFrame k.machine.pmm).1 = 0 := by
      rw [mapFresh] at hfail
      split_ifs at hfail with hzero
      exact hzero
    rw [hfail]
    exact Or.inl ⟨hzero, rfl⟩
  · rw [heq]
    exact Or.inr ⟨f, m₁, hfetched, hown₁, hsame, rfl⟩

end Task

namespace ComesIn

variable {k : Kernel} {s : TransState} {i pg : ℕ}

theorem lt_modelPages (h : ComesIn k s i pg) : pg < modelPages :=
  h.page.trans_le (h.window ▸ (winPages_le k s).1)

/-- A page of the window starts within the blob. -/
theorem page_start (h : ComesIn k s i pg) (hsize : 0 < s.wbytes) : pg * 4096 < s.wbytes := by
  have hpage := h.page.trans_le (h.window ▸ (winPages_le k s).2)
  omega

/-- The frame of the page, and how it got there. -/
theorem frame (h : ComesIn k s i pg) : ∃ f < 2 ^ 18,
    leafOf (afterFaultIn k s i pg).machine.mem (k.tasks i).cr3 (modelVa pg) =
      some (leafEntry (f * frameSize) vmmUser) ∧
    (afterFaultIn k s i pg).machine.mem f = weightsPage k.machine.mem s pg := by
  obtain ⟨root, loose, t, c, hown, hhand, hroot, hcr3⟩ := h.space
  have hva := isUserVa_modelVa h.lt_modelPages
  have hmapped := h.mapped
  have habsent := h.absent
  rcases machine_afterFaultIn hown hhand hcr3 s pg with
    ⟨-, hsame⟩ | ⟨f, m₁, hfetched, hown₁, hsame, hmachine⟩
  · rw [hsame] at hmapped
    exact absurd habsent hmapped
  rw [hcr3, leafOf_eq, ← hroot] at habsent
  rw [hmachine, hcr3, leafOf_eq, ← hroot] at hmapped ⊢
  have hnone : link pteFrame m₁.mem (root t) (pathOf (modelVa pg)) = none :=
    (hsame t _ (isLeaf_pathOf hva)).trans habsent
  have hlink := vmmMap_link hown₁ hroot hva (Function.update_self ..) vmmUser hnone
  refine ⟨f, hfetched.small, ?_, ?_⟩
  · rw [hlink] at hmapped ⊢
    rcases hwalk : (mapWalk m₁ (c * frameSize) (modelVa pg) vmmUser).1 with - | a
    · rw [hwalk] at hmapped
      exact absurd rfl hmapped
    · rfl
  · rw [vmmMap_loose hown₁ hroot (treePath_pathOf hva) (Function.update_self ..)]
    exact hfetched.mine

/-- What the task reads in the page: the kernel's memory, from the page's place in the blob on. -/
theorem load (h : ComesIn k s i pg) {j : ℕ} (hj : j < 4096) :
    userLoad (afterFaultIn k s i pg) i (modelVa pg + j) =
      some (byteAt k.machine.mem (transWeights s + pg * 4096 + j)) := by
  obtain ⟨f, hsmall, hleaf, hmem⟩ := h.frame
  have hpg := h.lt_modelPages
  have hva : IsUserVa (modelVa pg + j) := by
    rw [modelPages, userModelMax] at hpg
    rw [IsUserVa, modelVa, userModelBase]
    omega
  have hpage : (modelVa pg + j) / 4096 = modelVa pg / 4096 ∧ (modelVa pg + j) % 4096 = j := by
    rw [modelVa, userModelBase]
    omega
  obtain ⟨-, -, -, c, -, -, -, hcr3⟩ := h.space
  have hleaf' : leafOf (afterFaultIn k s i pg).machine.mem ((afterFaultIn k s i pg).tasks i).cr3
      (modelVa pg + j) = some (leafEntry (f * frameSize) vmmUser) := by
    rw [hcr3, leafOf_eq] at hleaf
    rw [cr3_afterFaultIn, hcr3, leafOf_eq, pathOf_congr hpage.1, hleaf]
  rw [userLoad_of_leaf hva hsmall (by decide) hleaf', hmem, hpage.2, weightsPage, pageByte_pageOf]

/-- Within the blob the task reads the blob. -/
theorem load_blob (h : ComesIn k s i pg) {off : ℕ} (hoff : off < s.wbytes) (hpg : off / 4096 = pg) :
    userLoad (afterFaultIn k s i pg) i (userModelBase + off) = some (s.blob off) := by
  obtain ⟨j, hj, rfl⟩ : ∃ j < 4096, off = pg * 4096 + j := ⟨off % 4096, by omega, by omega⟩
  have hload := h.load hj
  rwa [Nat.add_assoc, h.blob _ hoff, modelVa, Nat.add_assoc] at hload

end ComesIn

/-! ### The same blob elsewhere -/

/-- The blob with the same byte everywhere behind it. -/
def paddedBlob (s : TransState) (tail : Byte) (j : ℕ) : Byte :=
  if j < s.wbytes then s.blob j else tail

/-- The kernel with the padded blob behind the last frame. -/
def relocated (k : Kernel) (s : TransState) (tail : Byte) : Kernel :=
  let mem : ℕ → Page := fun g ↦
    if g < 2 ^ 18 then k.machine.mem g
    else pageOf fun off ↦ paddedBlob s tail ((g - 2 ^ 18) * frameSize + off)
  { k with machine := { k.machine with mem := mem } }

/-- The blob there. -/
def relocatedBlob (s : TransState) : TransState := { s with wblob := 2 ^ 18 * frameSize }

theorem byteAt_relocated (k : Kernel) (s : TransState) (tail : Byte) (j : ℕ) :
    byteAt (relocated k s tail).machine.mem (transWeights (relocatedBlob s) + j) =
      paddedBlob s tail j := by
  have hframe : (2 ^ 18 * frameSize + j) / frameSize = 2 ^ 18 + j / frameSize := by
    rw [Nat.mul_comm, Nat.mul_add_div (by decide : 0 < frameSize)]
  rw [byteAt, transWeights, relocatedBlob, hframe, Nat.mul_add_mod', relocated]
  simp only
  rw [if_neg (Nat.not_lt.mpr (Nat.le_add_right _ _)), pageByte_pageOf, Nat.add_sub_cancel_left,
    Nat.div_add_mod']

/-- The page comes in from there as well: the walk of `vmm_map` sees neither the copy nor the fresh
frame. -/
theorem ComesIn.relocated {k : Kernel} {s : TransState} {i pg : ℕ} (h : ComesIn k s i pg)
    (tail : Byte) : ComesIn (Mm.relocated k s tail) (relocatedBlob s) i pg := by
  obtain ⟨root, loose, t, c, hown, hhand, hroot, hcr3⟩ := h.space
  have hcr3' : ((Mm.relocated k s tail).tasks i).cr3 = c * frameSize := hcr3
  have hva := isUserVa_modelVa h.lt_modelPages
  have htable : ∀ {m : Machine} {loose : Holder → Option ℕ}, Owns m root loose → ∀ {g : ℕ},
      IsTable 4 2 pteFrame m.mem root g → g < 2 ^ 18 := fun hown _ hg ↦
    (hown.marked_of_isTable hg).1.trans_le hown.pmm.addressable
  have hkept : ∀ g < 2 ^ 18, (Mm.relocated k s tail).machine.mem g = k.machine.mem g :=
    fun g hg ↦ if_pos hg
  obtain ⟨hown', hsame'⟩ := hown.write fun g hg ↦ hkept g (htable hown hg)
  have habsent := h.absent
  have hmapped := h.mapped
  rw [hcr3, leafOf_eq, ← hroot] at habsent hmapped
  have habsent' : link pteFrame (Mm.relocated k s tail).machine.mem (root t)
      (pathOf (modelVa pg)) = none := (hsame' t _ (isLeaf_pathOf hva)).trans habsent
  refine ⟨⟨root, loose, t, c, hown', hhand, hroot, hcr3⟩, fun j hj ↦ ?_, h.window, h.page, ?_, ?_⟩
  · rw [byteAt_relocated]
    exact if_pos hj
  · rw [hcr3', leafOf_eq, ← hroot]
    exact habsent'
  rw [hcr3', leafOf_eq, ← hroot]
  rcases machine_afterFaultIn hown hhand hcr3 s pg with
    ⟨-, hsame⟩ | ⟨f, m₁, hfetched, hown₁, hsame₁, hmachine⟩
  · rw [hsame] at hmapped
    exact absurd habsent hmapped
  have halloc := hfetched.alloc
  have hpos := hown₁.lt_of_loose (Function.update_self ..)
  rcases machine_afterFaultIn (k := Mm.relocated k s tail) hown' hhand hcr3 (relocatedBlob s) pg with
    ⟨hzero, -⟩ | ⟨f', m₁', hfetched', hown₁', hsame₁', hmachine'⟩
  · have hzero' : (pmmAllocFrame k.machine.pmm).1 = 0 := hzero
    rw [halloc] at hzero'
    exact absurd hzero' (Nat.mul_ne_zero hpos.1 (by decide))
  have halloc' : pmmAllocFrame k.machine.pmm = (f' * frameSize, m₁'.pmm) := hfetched'.alloc
  rw [halloc, Prod.mk.injEq] at halloc'
  obtain ⟨hframe, hpmm⟩ := halloc'
  obtain rfl : f = f' := Nat.eq_of_mul_eq_mul_right (by decide : 0 < frameSize) hframe
  have hwalk := mapWalk_congr (fun g ↦ g = f ∨ 2 ^ 18 ≤ g) hown₁
    (fun m₂ hown₂ g hg hdiffer ↦ ?_) hpmm.symm (fun g hg ↦ ?_) hroot (treePath_pathOf hva) vmmUser
  · rw [hmachine, vmmMap_link hown₁ hroot hva (Function.update_self ..) vmmUser
      ((hsame₁ t _ (isLeaf_pathOf hva)).trans habsent)] at hmapped
    rwa [hmachine', vmmMap_link hown₁' hroot hva (Function.update_self ..) vmmUser
      ((hsame₁' t _ (isLeaf_pathOf hva)).trans habsent'), hwalk]
  · rcases hdiffer with rfl | hbeyond
    · exact not_isTable_of_loose hown₂.excl (Function.update_self ..) hg
    · exact absurd (htable hown₂ hg) (Nat.not_lt.mpr hbeyond)
  · rw [not_or, Nat.not_le] at hg
    rw [hfetched'.others g hg.1, hfetched.others g hg.1, hkept g hg.2]

/-! ### What the window shows -/

/-- The same blob. -/
structure SameBlob (s s' : TransState) : Prop where
  wbytes : s'.wbytes = s.wbytes
  bytes : ∀ j < s.wbytes, s'.blob j = s.blob j

/-- An offset of the window within the blob reads as the byte of the blob. -/
def ReadsBlob (k : Kernel) (s : TransState) (i pg : ℕ) : Prop :=
  ∀ off < s.wbytes, off / 4096 = pg →
    userLoad (afterFaultIn k s i pg) i (userModelBase + off) = some (s.blob off)

/-- Wherever the page comes in from the same blob, it reads the same, whatever else the kernel's
memory holds. -/
def ShowsOnlyBlob (k : Kernel) (s : TransState) (i pg : ℕ) : Prop :=
  ∀ k' s' i', ComesIn k' s' i' pg → SameBlob s s' → ∀ j < 4096,
    userLoad (afterFaultIn k' s' i' pg) i' (modelVa pg + j) =
      userLoad (afterFaultIn k s i pg) i (modelVa pg + j)

/-- A page of the window reads as the blob within the blob, and shows nothing else exactly when it
ends within the blob. -/
theorem showsOnlyBlob_iff {k : Kernel} {s : TransState} {i pg : ℕ} (h : ComesIn k s i pg)
    (hsize : s.wbytes = weightsBytesOf s.cfg) :
    ReadsBlob k s i pg ∧ (ShowsOnlyBlob k s i pg ↔ (pg + 1) * 4096 ≤ weightsBytesOf s.cfg) := by
  refine ⟨fun off hoff hpg ↦ h.load_blob hoff hpg, fun honly ↦ ?_, fun hwhole k' s' i' h' hsame j hj ↦ ?_⟩
  · by_contra hpartial
    have hpos : 0 < s.wbytes := by
      rw [hsize, weightsBytesOf, Trans.transHdr]
      omega
    have hstart := h.page_start hpos
    -- behind the blob the copy has another byte than the kernel's memory
    obtain ⟨j, hj, hbehind⟩ : ∃ j < 4096, pg * 4096 + j = s.wbytes :=
      ⟨s.wbytes - pg * 4096, by omega, by omega⟩
    have hread := h.load hj
    generalize byteAt k.machine.mem (transWeights s + pg * 4096 + j) = b at hread
    have hread' := (h.relocated (b + 1)).load hj
    rw [Nat.add_assoc, byteAt_relocated, paddedBlob, if_neg (by omega)] at hread'
    have heq := honly _ _ i (h.relocated (b + 1)) ⟨rfl, fun _ _ ↦ rfl⟩ j hj
    rw [hread, hread', Option.some.injEq] at heq
    exact absurd heq (by simp)
  · have hin : pg * 4096 + j < s.wbytes := by omega
    rw [h.load hj, h'.load hj, Nat.add_assoc, Nat.add_assoc, h.blob _ hin,
      h'.blob _ (hsame.wbytes ▸ hin), hsame.bytes _ hin]

/-- The model of the specification, in a block of the reserved frames. -/
def specState : TransState :=
  Trans.allocBlob ⟨0x10020, fun _ ↦ 0⟩
    { cfg := Trans.specCfg
      budgets := Trans.initBudgets (2 ^ 26)
      wblob := 0
      wbytes := 0
      blob := fun _ ↦ 0
      rng := Trans.rngSeed
      ws := none }

theorem specState_size : specState.wbytes = weightsBytesOf specState.cfg :=
  (Trans.blobOk_allocBlob _ _).size

/-- A small machine with one task. -/
def oneTask : Kernel := (schedSpawn smallKernel [] 0).2

/-- That machine with the model, and with the byte `tail` in the heap behind it. -/
def specKernel (tail : Byte) : Kernel :=
  let mem : ℕ → Page := fun g ↦
    if g < 256 then pageOf fun off ↦ paddedBlob specState tail (g * frameSize + off - specState.wblob)
    else oneTask.machine.mem g
  modelWindowSetup { oneTask with machine := { oneTask.machine with mem := mem } } specState

theorem specKernel_winPages (tail : Byte) :
    (specKernel tail).winPages = (modelWindowSetup (specKernel tail) specState).winPages := by
  rw [specKernel]
  exact winPages_modelWindowSetup _ _ _

theorem oneTask_grown : ∃ c paths, (oneTask.tasks 1).cr3 = c * frameSize ∧
    Grown smallKernel.machine.pmm oneTask.machine c none paths := by
  have hrun : (schedSpawn smallKernel [] 0).1 ≠ -1 ∧
      freeCount (schedSpawn smallKernel [] 0).2.machine.pmm ≠ 0 := by
    decide +kernel
  rw [oneTask]
  obtain ⟨c, hc, -, -, hload, hcr3⟩ := schedSpawn_loads smallKernel_booted.pmm hrun.1
    (show freeTask smallKernel = some 1 by decide)
  rcases Grown.newSpace smallKernel_booted.pmm smallKernel.bootPml4 with
    ⟨-, hfull⟩ | ⟨c', m', heq, -, hgrown⟩
  · exact absurd hfull (by decide +kernel)
  have hstart : spawnStart smallKernel 0 = m' := by
    rw [spawnStart, heq]
    rfl
  rw [heq] at hc
  obtain rfl : c' = c := Nat.eq_of_mul_eq_mul_right (by decide : 0 < frameSize) hc
  have hloading := hgrown.loadImage smallKernel.blob_fits
    (Or.inl (show ([] : List Byte).length ≤ 4095 by decide))
  rw [← hstart, hload] at hloading
  exact ⟨c', _, hcr3, hloading.grown hrun.2⟩

theorem specKernel_hasSpace (tail : Byte) : HasSpace (specKernel tail) 1 := by
  obtain ⟨c, paths, hcr3, hgrown⟩ := oneTask_grown
  have hreserved : ∀ g < 256, g < 320 ∧ bitGet smallKernel.machine.pmm.bitmap g = true := by
    decide +kernel
  refine ⟨onlyRoot c, inHand none, 0, c, ?_, rfl, onlyRoot_zero c, ?_⟩
  · rw [specKernel, modelWindowSetup]
    refine (hgrown.write fun g hg ↦ ?_).owns
    rw [if_neg fun hlt ↦ (hgrown.fresh g (hreserved g hlt)).2 (inSpace_of_isTable hg)]
  · rw [specKernel, modelWindowSetup]
    dsimp only
    exact hcr3

theorem byteAt_specKernel (tail : Byte) {j : ℕ} (hj : specState.wblob + j < 256 * frameSize) :
    byteAt (specKernel tail).machine.mem (specState.wblob + j) = paddedBlob specState tail j := by
  have hlt : (specState.wblob + j) / frameSize < 256 := Nat.div_lt_of_lt_mul (by rwa [Nat.mul_comm])
  rw [byteAt, specKernel, modelWindowSetup]
  simp only
  rw [if_pos hlt, pageByte_pageOf, Nat.div_add_mod', Nat.add_sub_cancel_left]

/-- The last page of the window comes in. -/
theorem specKernel_comesIn {tail : Byte} (htail : tail = 0 ∨ tail = 1) :
    ComesIn (specKernel tail) specState 1 104 := by
  have hmaps : ∀ tail : Byte, tail = 0 ∨ tail = 1 →
      leafOf (specKernel tail).machine.mem ((specKernel tail).tasks 1).cr3 (modelVa 104) = none ∧
        leafOf (afterFaultIn (specKernel tail) specState 1 104).machine.mem
          ((specKernel tail).tasks 1).cr3 (modelVa 104) ≠ none := by
    rintro tail (rfl | rfl)
    · decide +kernel
    · decide +kernel
  have hend : specState.wblob + specState.wbytes ≤ 256 * frameSize := by decide +kernel
  refine ⟨specKernel_hasSpace tail, fun j hj ↦ ?_, specKernel_winPages tail, ?_,
    (hmaps tail htail).1, (hmaps tail htail).2⟩
  · rw [transWeights, byteAt_specKernel tail (by omega), paddedBlob, if_pos hj]
  · rw [specKernel_winPages, winPages_modelWindowSetup _ smallKernel]
    decide +kernel

/-- The theorem at the last page of the model of the specification. -/
theorem showsOnlyBlob_iff_specState : ReadsBlob (specKernel 0) specState 1 104 ∧
    (ShowsOnlyBlob (specKernel 0) specState 1 104 ↔
      (104 + 1) * 4096 ≤ weightsBytesOf specState.cfg) :=
  showsOnlyBlob_iff (specKernel_comesIn (Or.inl rfl)) specState_size

/-- The window shows the heap behind the blob. -/
theorem window_shows_heap_behind_blob :
    ¬ ∀ (k : Kernel) (s : TransState) (i pg : ℕ), ComesIn k s i pg →
      s.wbytes = weightsBytesOf s.cfg → ReadsBlob k s i pg ∧ ShowsOnlyBlob k s i pg := by
  intro h
  have honly := (h _ _ _ _ (specKernel_comesIn (Or.inl rfl)) specState_size).2
  have hsame := honly _ _ 1 (specKernel_comesIn (Or.inr rfl)) ⟨rfl, fun _ _ ↦ rfl⟩ 2208 (by decide)
  have hplace : specState.wblob + (104 * 4096 + 2208) < 256 * frameSize ∧
      ¬ 104 * 4096 + 2208 < specState.wbytes := by decide +kernel
  rw [(specKernel_comesIn (Or.inl rfl)).load (by decide),
    (specKernel_comesIn (Or.inr rfl)).load (by decide), transWeights, Nat.add_assoc,
    byteAt_specKernel _ hplace.1, byteAt_specKernel _ hplace.1, paddedBlob, paddedBlob,
    if_neg hplace.2, if_neg hplace.2] at hsame
  exact absurd hsame (by decide)

end NoOsKernel.Mm
