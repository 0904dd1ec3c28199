import NoOsKernel.Lib.Bump
import NoOsKernel.Mm.FreeFrames
import NoOsKernel.Mm.Syscall
import NoOsKernel.Mm.Translate

/-!
# The user heap

The blocks `SYS_ALLOC` returns to one task over a whole run, while the rest of the kernel goes on.
The heap is a bump allocator below `USER_HEAP_BASE + 0x200000`, and `heap_pages` counts the pages
that are mapped for it. Two things can go wrong: the sizes are added in `u64` arithmetic without a
check, and `vmm_map` does not say when it lacks a page table (`Sound` excludes both).
-/

set_option autoImplicit false
set_option relaxedAutoImplicit false

namespace NoOsKernel.Mm

open Lib Lib.Radix

/-! ### Runs -/

/-- The kernel, and the blocks that task `i` has been given: their addresses and the sizes asked
for. -/
structure UserHeap where
  kernel : Kernel
  blocks : List (ℕ × ℕ)

/-- What the task asks for, and what the rest of the kernel does in the meantime. -/
inductive HeapOp
  | alloc (n : BitVec 64)
  | elsewhere (k : Kernel)

namespace UserHeap

def step (i : ℕ) (s : UserHeap) : HeapOp → UserHeap
  | .alloc n =>
    let r := sysAlloc s.kernel i n.toNat
    ⟨r.2, if r.1 = 0 then s.blocks else (r.1, n.toNat) :: s.blocks⟩
  | .elsewhere k => { s with kernel := k }

/-- The task of the heap. -/
def task (s : UserHeap) (i : ℕ) : Task := s.kernel.tasks i

/-- The size the heap would have, in unbounded arithmetic. -/
def demand (s : UserHeap) (i : ℕ) (n : BitVec 64) : ℕ :=
  (s.task i).heapUsed + (n.toNat + 15) / 16 * 16

/-- The call can be served as it should: the sum does not wrap, and if a page has to be mapped, then
there is no frame for it or there are frames for the page and for the page tables it lacks. -/
def Sound (s : UserHeap) (i : ℕ) (n : BitVec 64) : Prop :=
  s.demand i n < 2 ^ 64 ∧
    (0x200000 < s.demand i n ∨ s.demand i n ≤ (s.task i).heapPages * 4096 ∨
      freeCount s.kernel.machine.pmm = 0 ∨
      lackingTables s.kernel.machine.mem (s.task i).cr3
        (userHeapBase + (s.task i).heapPages * 4096) < freeCount s.kernel.machine.pmm)

/-- Calls are sound, and nobody else touches the heap of the task or its page tables. -/
def Admitted (i : ℕ) (s : UserHeap) : HeapOp → Prop
  | .alloc n => s.Sound i n
  | .elsewhere k =>
    PmmOk k.machine.pmm ∧ (k.tasks i).cr3 = (s.task i).cr3 ∧
      (k.tasks i).heapUsed = (s.task i).heapUsed ∧ (k.tasks i).heapPages = (s.task i).heapPages ∧
      ∀ f, IsTable 4 2 pteFrame s.kernel.machine.mem (onlyRoot ((s.task i).cr3 / frameSize)) f →
        Marked k.machine.pmm f ∧ k.machine.mem f = s.kernel.machine.mem f

/-- The task of a fresh address space: it has no heap yet. -/
structure Fresh (s : UserHeap) (i : ℕ) : Prop where
  tabled : Tabled s.kernel.machine (onlyRoot ((s.task i).cr3 / frameSize))
  aligned : (s.task i).cr3 / frameSize * frameSize = (s.task i).cr3
  used : (s.task i).heapUsed = 0
  pages : (s.task i).heapPages = 0
  blocks : s.blocks = []

/-- The blocks lie in the heap on pages that are counted and mapped, and apart from each other. -/
structure Backed (s : UserHeap) (i : ℕ) : Prop where
  inside : ∀ b ∈ s.blocks, userHeapBase ≤ b.1 ∧ b.1 + b.2 ≤ userHeapBase + 0x200000
  onPages : ∀ b ∈ s.blocks, ∀ va, b.1 ≤ va → va < b.1 + b.2 →
    (va - userHeapBase) / 4096 < (s.task i).heapPages
  mapped : ∀ j < (s.task i).heapPages,
    vmmTranslate s.kernel.machine.mem (s.task i).cr3 (userHeapBase + j * 4096) ≠ 0
  apart : s.blocks.Pairwise BlocksApart

end UserHeap

/-! ### Pages of the heap -/

/-- Page `j` of the heap. -/
def heapVa (j : ℕ) : ℕ := userHeapBase + j * 4096

theorem isUserVa_heapVa {j : ℕ} (hj : j < 512) : IsUserVa (heapVa j) := by
  rw [IsUserVa, heapVa, userHeapBase]
  omega

/-- All pages of the heap have one page table. -/
theorem tablePath_heapVa {j : ℕ} (hj : j < 512) : tablePath (heapVa j) = tablePath (heapVa 0) := by
  simp only [tablePath, heapVa, userHeapBase, pdi, pdpti, pml4i, List.cons.injEq, and_true]
  omega

theorem pathOf_heapVa_inj {j j' : ℕ} (hj : j < 512) (hj' : j' < 512)
    (h : pathOf (heapVa j) = pathOf (heapVa j')) : j = j' := by
  have hpage := pathOf_inj (isUserVa_heapVa hj) (isUserVa_heapVa hj') h
  rw [heapVa, heapVa, userHeapBase] at hpage
  omega

variable {m m' : Machine} {c : ℕ}

theorem translate_eq_link (mem : ℕ → Page) (c va : ℕ) :
    vmmTranslate mem (c * frameSize) va =
      ((link pteFrame mem (onlyRoot c 0) (pathOf va)).map pteAddr).getD 0 := by
  rw [vmmTranslate_eq, leafOf_eq, onlyRoot_zero]

/-- A fresh page is mapped when there are frames for it and for the tables its walk lacks. -/
theorem Tabled.mapFresh (h : Tabled m (onlyRoot c)) {va : ℕ} (hva : IsUserVa va)
    (hlack : lackingTables m.mem (c * frameSize) va < freeCount m.pmm) (fill : Option Page)
    (flags : BitVec 8) :
    ∃ f m', Mm.mapFresh m (c * frameSize) va fill flags = .ok (f * frameSize, m') ∧
      Tabled m' (onlyRoot c) ∧ vmmTranslate m'.mem (c * frameSize) va ≠ 0 ∧
      ∀ v, IsUserVa v → pathOf v ≠ pathOf va →
        vmmTranslate m'.mem (c * frameSize) v = vmmTranslate m.mem (c * frameSize) v := by
  rcases pmmAllocFrame_spec h.pmm with hfail | ⟨f, pmm, halloc, hpos, hlt, hfresh, hok, -, hmark⟩
  · have hzero := (alloc_eq_zero_iff h.pmm).mp (by rw [hfail])
    omega
  have hne : f * frameSize ≠ 0 := Nat.mul_ne_zero hpos.ne' (by decide)
  have hsmall : f < 2 ^ 18 := hlt.trans_le h.pmm.addressable
  have hfree : freeCount pmm + 1 = freeCount m.pmm := by
    have hsnd := freeCount_alloc_snd h.pmm
    rw [halloc] at hsnd
    change freeCount pmm = _ at hsnd
    omega
  -- the page is filled: its frame is no table
  set m₁ := Machine.fill { m with pmm := pmm } (f * frameSize) fill with hm₁
  have hpmm₁ : m₁.pmm = pmm := by
    rw [hm₁]
    cases fill <;> rfl
  have hmem₁ : ∀ g, IsTable 4 2 pteFrame m.mem (onlyRoot c) g → m₁.mem g = m.mem g := by
    intro g hg
    rw [hm₁]
    cases fill with
    | none => rfl
    | some page =>
      refine if_neg ?_
      rw [Nat.mul_div_cancel _ (by decide : 0 < frameSize)]
      rintro rfl
      exact hfresh (h.inUse hg).2
  have h₁ : Tabled m₁ (onlyRoot c) := by
    refine h.of_same (hpmm₁ ▸ hok) fun g hg ↦ ⟨?_, hmem₁ g hg⟩
    rw [hpmm₁, hmark]
    exact Or.inl (h.inUse hg).2
  have hlack₁ : lackingTables m₁.mem (c * frameSize) va ≤ freeCount m₁.pmm := by
    have hpath := treePath_pathOf hva
    have hnode : ∀ p, TreePath 4 2 p →
        node pteFrame m₁.mem (some c) p = node pteFrame m.mem (some c) p := by
      intro p hp
      rw [← onlyRoot_zero c]
      exact node_congr hmem₁ hp
    rw [lackingTables_eq, hnode _ hpath.tail.tail.tail, hnode _ hpath.tail.tail, hnode _ hpath.tail,
      ← lackingTables_eq, hpmm₁]
    omega
  obtain ⟨h', hlinks⟩ := vmmMap_tabled h₁ (onlyRoot_zero c) hva.pml4i_eq (f * frameSize) flags
  have harrives := mapWalk_ne_none h₁.pmm hlack₁ flags
  refine ⟨f, _, ?_, h', ?_, ?_⟩
  · rw [Mm.mapFresh, halloc, if_neg hne]
  · have hleaf := hlinks 0 (pathOf va) (isLeaf_pathOf hva)
    have hsome : (pteFrame (leafEntry (f * frameSize) flags)).isSome = true := by
      rw [pteFrame_leafEntry hsmall]
      rfl
    rw [if_pos ⟨harrives, rfl, rfl⟩, Option.filter_some, if_pos hsome] at hleaf
    rw [translate_eq_link, hleaf, Option.map_some, Option.getD_some,
      pteAddr_leafEntry (by rw [frameSize]; omega), frameSize, Nat.mul_div_cancel _ (by decide)]
    exact hne
  · intro v hv hother
    rw [translate_eq_link, hlinks 0 (pathOf v) (isLeaf_pathOf hv), if_neg fun hsame ↦ hother hsame.2.2,
      translate_eq_link, link_congr hmem₁ (treePath_pathOf hv)]

/-- A page that is mapped has its tables. -/
theorem lackingTables_of_mapped {va : ℕ} (h : vmmTranslate m.mem (c * frameSize) va ≠ 0) :
    ∃ pt, node pteFrame m.mem (some c) (tablePath va) = some pt := by
  rw [vmmTranslate, walkPt_eq] at h
  rw [← Option.ne_none_iff_exists']
  intro hnone
  rw [tablePath] at hnone
  rw [hnone] at h
  exact h rfl

/-! ### Growing the heap -/

/-- The heap of a task as the loop of `sys_alloc` sees it. -/
structure HeapPages (k : Kernel) (i c : ℕ) : Prop where
  tabled : Tabled k.machine (onlyRoot c)
  cr3 : (k.tasks i).cr3 = c * frameSize
  mapped : ∀ j < (k.tasks i).heapPages, vmmTranslate k.machine.mem (c * frameSize) (heapVa j) ≠ 0

/-- One more page of the heap is counted. -/
def countPage (k : Kernel) (i : ℕ) (m : Machine) : Kernel :=
  Kernel.setTask { k with machine := m } i
    { k.tasks i with heapPages := (k.tasks i).heapPages + 1 }

@[simp] theorem countPage_machine (k : Kernel) (i : ℕ) (m : Machine) :
    (countPage k i m).machine = m := rfl

theorem countPage_task (k : Kernel) (i : ℕ) (m : Machine) : (countPage k i m).tasks i =
    { k.tasks i with heapPages := (k.tasks i).heapPages + 1 } :=
  Function.update_self ..

@[simp] theorem countPage_cr3 (k : Kernel) (i : ℕ) (m : Machine) :
    ((countPage k i m).tasks i).cr3 = (k.tasks i).cr3 := by
  rw [countPage_task]

@[simp] theorem countPage_heapUsed (k : Kernel) (i : ℕ) (m : Machine) :
    ((countPage k i m).tasks i).heapUsed = (k.tasks i).heapUsed := by
  rw [countPage_task]

@[simp] theorem countPage_heapPages (k : Kernel) (i : ℕ) (m : Machine) :
    ((countPage k i m).tasks i).heapPages = (k.tasks i).heapPages + 1 := by
  rw [countPage_task]

variable {k : Kernel} {i count : ℕ}

theorem growHeap_of_error (h : mapFresh k.machine (k.tasks i).cr3 (heapVa (k.tasks i).heapPages)
    (some fun _ ↦ 0) (vmmUser ||| vmmWrite) = .error m) :
    growHeap k i (count + 1) = (false, { k with machine := m }) := by
  rw [heapVa] at h
  simp only [growHeap, h]

theorem growHeap_of_ok {a : ℕ} (h : mapFresh k.machine (k.tasks i).cr3
    (heapVa (k.tasks i).heapPages) (some fun _ ↦ 0) (vmmUser ||| vmmWrite) = .ok (a, m)) :
    growHeap k i (count + 1) = growHeap (countPage k i m) i count := by
  rw [heapVa] at h
  simp only [growHeap, h]
  rfl

/-- What the loop leaves when it was to map `count` pages. -/
structure HeapGrown (k k' : Kernel) (i c count : ℕ) (done : Bool) : Prop where
  pages : HeapPages k' i c
  used : (k'.tasks i).heapUsed = (k.tasks i).heapUsed
  low : (k.tasks i).heapPages ≤ (k'.tasks i).heapPages
  high : (k'.tasks i).heapPages ≤ (k.tasks i).heapPages + count
  all : done = true → (k'.tasks i).heapPages = (k.tasks i).heapPages + count

/-- The loop maps the pages it counts, and counts no page without a frame. -/
theorem grown_growHeap (h : HeapPages k i c) (hroom : (k.tasks i).heapPages + count ≤ 512)
    (hframes : count = 0 ∨ freeCount k.machine.pmm = 0 ∨
      lackingTables k.machine.mem (c * frameSize) (heapVa (k.tasks i).heapPages) <
        freeCount k.machine.pmm) :
    HeapGrown k (growHeap k i count).2 i c count (growHeap k i count).1 := by
  induction count generalizing k with
  | zero => exact ⟨h, rfl, le_refl _, le_refl _, fun _ ↦ rfl⟩
  | succ count ih =>
    have hva := isUserVa_heapVa (show (k.tasks i).heapPages < 512 by omega)
    obtain hzero | hfull | hlack := hframes
    · omega
    · have halloc := (noFrame_iff h.tabled.pmm).mpr hfull
      rw [NoFrame] at halloc
      have herror : mapFresh k.machine (k.tasks i).cr3 (heapVa (k.tasks i).heapPages)
          (some fun _ ↦ 0) (vmmUser ||| vmmWrite) = .error k.machine := by
        rw [mapFresh, halloc]
        rfl
      rw [growHeap_of_error herror]
      exact ⟨h, rfl, le_refl _, Nat.le_add_right _ _, fun hno ↦ absurd hno Bool.false_ne_true⟩
    · obtain ⟨f, m', hok, h', hmapped, hothers⟩ := h.tabled.mapFresh hva hlack (some fun _ ↦ 0)
        (vmmUser ||| vmmWrite)
      rw [← h.cr3] at hok
      rw [growHeap_of_ok hok]
      have hpages : HeapPages (countPage k i m') i c := by
        refine ⟨h', by rw [countPage_cr3, h.cr3], fun j hj ↦ ?_⟩
        rw [countPage_heapPages] at hj
        rw [countPage_machine]
        obtain hold | rfl : j < (k.tasks i).heapPages ∨ j = (k.tasks i).heapPages := by omega
        · rw [hothers _ (isUserVa_heapVa (by omega)) fun hsame ↦
            hold.ne (pathOf_heapVa_inj (by omega) (by omega) hsame)]
          exact h.mapped j hold
        · exact hmapped
      -- the page table is there now
      have hnext : count = 0 ∨ freeCount (countPage k i m').machine.pmm = 0 ∨
          lackingTables (countPage k i m').machine.mem (c * frameSize)
            (heapVa ((countPage k i m').tasks i).heapPages) <
              freeCount (countPage k i m').machine.pmm := by
        by_cases hcount : count = 0
        · exact Or.inl hcount
        · right
          rw [countPage_heapPages, countPage_machine]
          obtain ⟨pt, hpt⟩ := lackingTables_of_mapped hmapped
          rw [tablePath_heapVa (by omega),
            ← tablePath_heapVa (show (k.tasks i).heapPages + 1 < 512 by omega)] at hpt
          rw [lackingTables_of_node hpt]
          omega
      have hrest := ih hpages (by rw [countPage_heapPages]; omega) hnext
      have hused := hrest.used
      have hlow := hrest.low
      have hhigh := hrest.high
      have hall := hrest.all
      rw [countPage_heapUsed] at hused
      rw [countPage_heapPages] at hlow hhigh hall
      exact ⟨hrest.pages, hused, by omega, by omega, fun hdone ↦ by rw [hall hdone]; omega⟩

/-! ### One call -/

/-- A call whose sum does not wrap. -/
theorem sysAlloc_eq {n : BitVec 64} (h : (k.tasks i).heapUsed + (n.toNat + 15) / 16 * 16 < 2 ^ 64) :
    sysAlloc k i n.toNat =
      if 0x200000 < (k.tasks i).heapUsed + (n.toNat + 15) / 16 * 16 then (0, k)
      else
        let r := growHeap k i (((k.tasks i).heapUsed + (n.toNat + 15) / 16 * 16 + 4095) / 4096 -
          (k.tasks i).heapPages)
        if r.1 = false then (0, r.2)
        else (userHeapBase + (k.tasks i).heapUsed, r.2.setTask i { r.2.tasks i with
          heapUsed := (k.tasks i).heapUsed + (n.toNat + 15) / 16 * 16 }) := by
  have hround : (n.toNat + 15) % 2 ^ 64 / 16 * 16 = (n.toNat + 15) / 16 * 16 := by
    have := n.isLt
    omega
  simp only [sysAlloc, hround, Nat.mod_eq_of_lt h]

namespace UserHeap

/-- The heap lies on its pages, and the blocks lie in the part that is used. -/
structure Inv (s : UserHeap) (i c : ℕ) : Prop where
  pages : HeapPages s.kernel i c
  cap : (s.task i).heapPages ≤ 512
  used : (s.task i).heapUsed ≤ (s.task i).heapPages * 4096
  blocks : Bumped userHeapBase (userHeapBase + (s.task i).heapUsed) s.blocks

variable {s : UserHeap} {i c : ℕ}

theorem Inv.backed (h : s.Inv i c) : s.Backed i := by
  have hcap := h.cap
  have hused := h.used
  refine ⟨fun b hb ↦ ⟨h.blocks.low b hb, ?_⟩, fun b hb va hlow hhigh ↦ ?_, fun j hj ↦ ?_,
    h.blocks.apart⟩
  · have := h.blocks.high b hb
    omega
  · have := h.blocks.low b hb
    have := h.blocks.high b hb
    omega
  · have hmapped := h.pages.mapped j hj
    rwa [← h.pages.cr3] at hmapped

/-- A sound call keeps the heap in order, and what is used does not shrink. -/
theorem Inv.alloc (h : s.Inv i c) {n : BitVec 64} (hsound : s.Sound i n) :
    (s.step i (.alloc n)).Inv i c ∧
      (s.task i).heapUsed ≤ ((s.step i (.alloc n)).task i).heapUsed := by
  obtain ⟨hwrap, hframes⟩ := hsound
  have hcap := h.cap
  have hused := h.used
  rw [demand, task] at hwrap
  simp only [demand, task] at hframes hcap hused
  have heq := sysAlloc_eq hwrap
  -- the call does not fit
  by_cases hlimit : 0x200000 < (s.kernel.tasks i).heapUsed + (n.toNat + 15) / 16 * 16
  · rw [if_pos hlimit] at heq
    have hsame : s.step i (.alloc n) = s := by
      simp only [step, heq, if_pos]
    rw [hsame]
    exact ⟨h, le_refl _⟩
  rw [if_neg hlimit] at heq
  set demand := (s.kernel.tasks i).heapUsed + (n.toNat + 15) / 16 * 16 with hdemand
  set count := (demand + 4095) / 4096 - (s.kernel.tasks i).heapPages with hcount
  have hgrown : HeapGrown s.kernel (growHeap s.kernel i count).2 i c count
      (growHeap s.kernel i count).1 := by
    refine grown_growHeap h.pages (by omega) ?_
    rw [h.pages.cr3] at hframes
    obtain hbig | hfits | hrest := hframes
    · exact absurd hbig hlimit
    · exact Or.inl (by omega)
    · exact Or.inr hrest
  simp only at heq
  by_cases hdone : (growHeap s.kernel i count).1 = false
  · -- a page is missing: what was mapped stays mapped
    rw [if_pos hdone] at heq
    have hstep : s.step i (.alloc n) = ⟨(growHeap s.kernel i count).2, s.blocks⟩ := by
      simp only [step, heq, if_pos]
    have hlow := hgrown.low
    have hhigh := hgrown.high
    rw [hstep]
    refine ⟨⟨hgrown.pages, ?_, ?_, ?_⟩, ?_⟩
    · change ((growHeap s.kernel i count).2.tasks i).heapPages ≤ 512
      omega
    · have hbelow : ((growHeap s.kernel i count).2.tasks i).heapUsed ≤
          ((growHeap s.kernel i count).2.tasks i).heapPages * 4096 := by
        have hsame := hgrown.used
        omega
      exact hbelow
    · change Bumped _ (_ + ((growHeap s.kernel i count).2.tasks i).heapUsed) _
      rw [hgrown.used]
      exact h.blocks
    · change _ ≤ ((growHeap s.kernel i count).2.tasks i).heapUsed
      rw [hgrown.used]
      exact le_refl _
  · rw [if_neg hdone] at heq
    have hall := hgrown.all (by rwa [Bool.not_eq_false] at hdone)
    have hne : userHeapBase + (s.kernel.tasks i).heapUsed ≠ 0 := by
      rw [userHeapBase]
      omega
    set k' := (growHeap s.kernel i count).2 with hk'
    set t' : Task := { k'.tasks i with heapUsed := demand } with ht'
    have hstep : s.step i (.alloc n) = ⟨k'.setTask i t',
        (userHeapBase + (s.kernel.tasks i).heapUsed, n.toNat) :: s.blocks⟩ := by
      simp only [step, heq, if_neg hne]
    have htask : (s.step i (.alloc n)).task i = t' := by
      rw [hstep]
      exact Function.update_self ..
    have hself : (k'.setTask i t').tasks i = t' := Function.update_self ..
    have hpages : demand ≤ (k'.tasks i).heapPages * 4096 := by
      omega
    rw [htask]
    refine ⟨⟨?_, ?_, ?_, ?_⟩, ?_⟩
    · rw [hstep]
      refine ⟨hgrown.pages.tabled, ?_, ?_⟩
      · change ((k'.setTask i t').tasks i).cr3 = _
        rw [hself]
        exact hgrown.pages.cr3
      · change ∀ j < ((k'.setTask i t').tasks i).heapPages, _
        rw [hself]
        exact hgrown.pages.mapped
    · rw [htask]
      change (k'.tasks i).heapPages ≤ 512
      omega
    · rw [htask]
      exact hpages
    · rw [htask, hstep]
      exact h.blocks.push (by rw [task]; change _ ≤ _ + demand; omega)
    · change _ ≤ demand
      rw [task]
      omega

/-- The kernel may go on elsewhere. -/
theorem Inv.elsewhere (h : s.Inv i c) {k : Kernel} (hop : s.Admitted i (.elsewhere k)) :
    (s.step i (.elsewhere k)).Inv i c ∧ (k.tasks i).heapUsed = (s.task i).heapUsed := by
  obtain ⟨hpmm, hcr3, hused, hpages, htables⟩ := hop
  have hroot : (s.task i).cr3 / frameSize = c := by
    rw [task, h.pages.cr3, Nat.mul_div_cancel _ (by decide : 0 < frameSize)]
  rw [hroot] at htables
  refine ⟨⟨⟨h.pages.tabled.of_same hpmm htables, hcr3.trans h.pages.cr3, fun j hj ↦ ?_⟩, ?_, ?_, ?_⟩,
    hused⟩
  · have hold := h.pages.mapped j (hpages ▸ hj)
    have hj' : j < 512 := (hpages ▸ hj : j < (s.task i).heapPages).trans_le h.cap
    rw [translate_eq_link] at hold ⊢
    change ((link pteFrame k.machine.mem _ _).map pteAddr).getD 0 ≠ 0
    rwa [link_congr (fun g hg ↦ (htables g hg).2) (treePath_pathOf (isUserVa_heapVa hj'))]
  · change (k.tasks i).heapPages ≤ 512
    rw [hpages]
    exact h.cap
  · have hbelow : (k.tasks i).heapUsed ≤ (k.tasks i).heapPages * 4096 := by
      have hold := h.used
      omega
    exact hbelow
  · change Bumped _ (_ + (k.tasks i).heapUsed) _
    rw [hused]
    exact h.blocks

/-- What every step of a run does to the heap. -/
theorem Inv.step (h : s.Inv i c) {op : HeapOp} (hop : s.Admitted i op) :
    (s.step i op).Inv i c ∧ (s.task i).heapUsed ≤ ((s.step i op).task i).heapUsed := by
  cases op with
  | alloc n => exact h.alloc hop
  | elsewhere k =>
    obtain ⟨hinv, hused⟩ := h.elsewhere hop
    exact ⟨hinv, hused.ge⟩

theorem Fresh.inv (h : s.Fresh i) : s.Inv i ((s.task i).cr3 / frameSize) := by
  refine ⟨⟨h.tabled, h.aligned.symm, fun j hj ↦ ?_⟩, ?_, ?_, ?_⟩
  · rw [← task, h.pages] at hj
    exact absurd hj (Nat.not_lt_zero j)
  · rw [h.pages]
    exact Nat.zero_le _
  · rw [h.used]
    exact Nat.zero_le _
  · rw [h.blocks]
    exact Bumped.nil (Nat.le_add_right _ _)

/-- In every run of sound calls the blocks are disjoint and backed, and what is used of the heap never
decreases. -/
theorem blocks_backed {s₀ : UserHeap} (hfresh : s₀.Fresh i)
    (hrun : Run (UserHeap.step i) (Admitted i) s₀ s) :
    s.Backed i ∧ ∀ op, s.Admitted i op → (s.task i).heapUsed ≤ ((s.step i op).task i).heapUsed := by
  have hinv : s.Inv i ((s₀.task i).cr3 / frameSize) :=
    hrun.invariant (fun u ↦ u.Inv i ((s₀.task i).cr3 / frameSize)) hfresh.inv
      fun u op hu hop ↦ (hu.step hop).1
  exact ⟨hinv.backed, fun op hop ↦ (hinv.step hop).2⟩

end UserHeap

/-- A new address space has its tables. -/
theorem tabled_newSpace (hpmm : PmmOk m.pmm) {bootPml4 : ℕ}
    (hne : (vmmNewAddressSpace m bootPml4).1 ≠ 0) :
    ∃ c, (vmmNewAddressSpace m bootPml4).1 = c * frameSize ∧
      Tabled (vmmNewAddressSpace m bootPml4).2 (onlyRoot c) := by
  have hnone : Tabled m fun _ ↦ none := by
    refine ⟨hpmm, ⟨fun o f ho ↦ ?_, fun o o' f ho ↦ ?_⟩, nofun⟩
    · exact absurd ho (no_owner (fun _ ↦ rfl) o f)
    · exact absurd ho (no_owner (fun _ ↦ rfl) o f)
  rcases vmmNewAddressSpace_cases hpmm bootPml4 with hfail | ⟨c, m', heq, hnew⟩
  · rw [hfail] at hne
    exact absurd rfl hne
  · rw [heq]
    exact ⟨c, rfl, hnone.plant hnew 0⟩

/-- A task with a new address space has a fresh heap. -/
theorem fresh_of_newSpace {k : Kernel} {i bootPml4 : ℕ} (hpmm : PmmOk m.pmm)
    (hmachine : k.machine = (vmmNewAddressSpace m bootPml4).2)
    (hcr3 : (k.tasks i).cr3 = (vmmNewAddressSpace m bootPml4).1) (hne : (k.tasks i).cr3 ≠ 0)
    (hused : (k.tasks i).heapUsed = 0) (hpages : (k.tasks i).heapPages = 0) :
    (UserHeap.mk k []).Fresh i := by
  obtain ⟨c, hc, htabled⟩ := tabled_newSpace hpmm (hcr3 ▸ hne)
  have hdiv : (k.tasks i).cr3 / frameSize = c := by
    rw [hcr3, hc, Nat.mul_div_cancel _ (by decide : 0 < frameSize)]
  refine ⟨?_, ?_, hused, hpages, rfl⟩
  · change Tabled k.machine (onlyRoot ((k.tasks i).cr3 / frameSize))
    rw [hdiv, hmachine]
    exact htabled
  · change (k.tasks i).cr3 / frameSize * frameSize = (k.tasks i).cr3
    rw [hdiv, hcr3, hc]

/-- Task 1 in an address space, given with the machine it was made in. -/
def heapIn (space : ℕ × Machine) : UserHeap where
  kernel := { identityKernel with
    machine := space.2
    tasks := Function.update identityKernel.tasks 1
      { Task.fresh with pid := 1, hasKstack := true, cr3 := space.1, user := true } }
  blocks := []

theorem fresh_heapIn (hpmm : PmmOk m.pmm) {bootPml4 : ℕ}
    (hne : (vmmNewAddressSpace m bootPml4).1 ≠ 0) :
    (heapIn (vmmNewAddressSpace m bootPml4)).Fresh 1 :=
  fresh_of_newSpace hpmm rfl rfl hne rfl rfl

/-- Task 1 in the first address space after boot. -/
def freshHeap : UserHeap := heapIn (vmmNewAddressSpace bootSpaces.machine 0x101000)

theorem fresh_freshHeap : freshHeap.Fresh 1 :=
  fresh_heapIn bootSpaces_pmmOk (by decide +kernel)

/-- Two blocks, the second of more than a page. -/
theorem blocks_backed_two :
    ((freshHeap.step 1 (.alloc 100)).step 1 (.alloc 5000)).Backed 1 ∧
      ((freshHeap.step 1 (.alloc 100)).step 1 (.alloc 5000)).blocks =
        [(userHeapBase + 112, 5000), (userHeapBase, 100)] := by
  have hsound : freshHeap.Sound 1 100 :=
    ⟨by decide, Or.inr (Or.inr (Or.inr (by decide +kernel)))⟩
  have hsound' : (freshHeap.step 1 (.alloc 100)).Sound 1 5000 :=
    ⟨by decide +kernel, Or.inr (Or.inr (Or.inr (by decide +kernel)))⟩
  have hrun : Run (UserHeap.step 1) (UserHeap.Admitted 1) freshHeap
      ((freshHeap.step 1 (.alloc 100)).step 1 (.alloc 5000)) :=
    (Run.refl.snoc (HeapOp.alloc 100) hsound).snoc (HeapOp.alloc 5000) hsound'
  exact ⟨(UserHeap.blocks_backed fresh_freshHeap hrun).1, by decide +kernel⟩

/-- A size that wraps to nothing is given a block at the end of what is used. -/
theorem alloc_wraps_to_nothing :
    freshHeap.Fresh 1 ∧ ¬ (freshHeap.step 1 (.alloc 0xFFFFFFFFFFFFFFFF)).Backed 1 := by
  refine ⟨fresh_freshHeap, fun hbacked ↦ ?_⟩
  have hblocks : (freshHeap.step 1 (.alloc 0xFFFFFFFFFFFFFFFF)).blocks =
      [(userHeapBase, 0xFFFFFFFFFFFFFFFF)] := by
    decide +kernel
  have hinside := (hbacked.inside (userHeapBase, 0xFFFFFFFFFFFFFFFF)
    (by rw [hblocks]; exact List.mem_singleton.mpr rfl)).2
  exact absurd hinside (by decide)

end NoOsKernel.Mm
