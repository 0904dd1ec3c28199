import NoOsKernel.Mm.SpawnFrames

/-!
# All or nothing

`sched_spawn` means to give back what it took when it fails. It does when the frames run out between
two pages. It does not when they run out before the first page, since `vmm_free_address_space`
returns at once when nothing is mapped, nor when they run out within `vmm_map`, which does not say
so; at the last page of the stack a process is started without it.
-/

set_option autoImplicit false
set_option relaxedAutoImplicit false

namespace NoOsKernel.Mm

open Lib Lib.Radix

/-! ### The property -/

/-- A frame the heap took for the kernel stack. -/
def HeapTook (k : Kernel) (need f : ℕ) : Prop :=
  Marked (kmalloc (pmmAllocFrame k.machine.pmm).2 need).2 f ∧
    ¬ Marked (pmmAllocFrame k.machine.pmm).2 f

/-- What was taken was given back, the frames of the heap apart, and no task can run that could not
before. -/
structure GaveBack (k : Kernel) (need : ℕ) (k' : Kernel) : Prop where
  frames : ∀ f, Marked k'.machine.pmm f → Marked k.machine.pmm f ∨ HeapTook k need f
  kept : ∀ f, Marked k.machine.pmm f → Marked k'.machine.pmm f
  tasks : ∀ j, (k'.tasks j).user = true ∧ (k'.tasks j).state = .runnable →
    (k.tasks j).user = true ∧ (k.tasks j).state = .runnable

/-- A task with the process number has all pages of the image, of the script and of the stack. -/
def HasPages (k : Kernel) (k' : Kernel) (pid : ℤ) : Prop :=
  ∃ i, freeTask k = some i ∧ ((k'.tasks i).pid : ℤ) = pid ∧
    ∀ va ∈ spawnVas k.blob.length, vmmTranslate k'.machine.mem (k'.tasks i).cr3 va ≠ 0

/-- `sched_spawn` fails and gives back what it took, or starts a process with all its pages. -/
def AllOrNothing (k : Kernel) (code : List Byte) (need : ℕ) : Prop :=
  ((schedSpawn k code need).1 = -1 ∧ GaveBack k need (schedSpawn k code need).2) ∨
    ((schedSpawn k code need).1 = k.nextPid ∧
      HasPages k (schedSpawn k code need).2 (schedSpawn k code need).1)

/-! ### When it holds -/

/-- The number of pages of a process. -/
def spawnPages (k : Kernel) : ℕ := (spawnVas k.blob.length).length

/-- The frames of an address space with the first `j` pages of a process. -/
def spawnCost (k : Kernel) (j : ℕ) : ℕ := (treeOf ((spawnVas k.blob.length).take j)).card

/-- There is nothing to take; or the heap finds room for the kernel stack, and the frames that are
left suffice for all pages, or run out between two pages. -/
def SpawnFits (k : Kernel) (need : ℕ) : Prop :=
  freeTask k = none ∨ freeCount k.machine.pmm = 0 ∨
    ((kmalloc (pmmAllocFrame k.machine.pmm).2 need).1 = true ∧
      (spawnCost k (spawnPages k) + need ≤ freeCount k.machine.pmm ∨
        ∃ j, 1 ≤ j ∧ j < spawnPages k ∧ spawnCost k j + need = freeCount k.machine.pmm))

/-- The copy of the script stays in the first scratch page, or the frames run out before it. -/
def CopyFits (k : Kernel) (code : List Byte) (need : ℕ) : Prop :=
  code.length ≤ 4095 ∨
    freeCount k.machine.pmm < spawnCost k (k.blob.length + 8) + need

variable {k : Kernel} {code : List Byte} {need : ℕ}

theorem pml4i_spawnVas : ∀ va ∈ spawnVas k.blob.length, pml4i va = 2 :=
  fun _ hva ↦ (isUserVa_spawnVas k.blob_fits hva).1.pml4i_eq

theorem spawnCost_lt {j j' : ℕ} (hlt : j < j') (hle : j' ≤ spawnPages k) :
    spawnCost k j < spawnCost k j' :=
  card_treeOf_take_lt (nodup_pathOf_spawnVas k.blob_fits) hlt hle

theorem spawnCost_le {j j' : ℕ} (hjj : j ≤ j') (hle : j' ≤ spawnPages k) :
    spawnCost k j ≤ spawnCost k j' := by
  rcases Nat.eq_or_lt_of_le hjj with rfl | hlt
  · exact le_refl _
  · exact (spawnCost_lt hlt hle).le

/-- A frame that is neither given back nor the heap's. -/
theorem not_allOrNothing (hfail : (schedSpawn k code need).1 = -1) {f : ℕ}
    (hf : Marked (schedSpawn k code need).2.machine.pmm f) (hnew : ¬ Marked k.machine.pmm f)
    (hheap : ¬ HeapTook k need f) : ¬ AllOrNothing k code need := by
  rintro (⟨-, hback⟩ | ⟨hpid, -⟩)
  · rcases hback.frames f hf with hold | htook
    · exact hnew hold
    · exact hheap htook
  · omega

/-- Clearing a slot makes no task runnable. -/
theorem runnable_of_fresh {k' : Kernel} {i j : ℕ}
    (htasks : k'.tasks = Function.update k.tasks i Task.fresh)
    (h : (k'.tasks j).user = true ∧ (k'.tasks j).state = .runnable) :
    (k.tasks j).user = true ∧ (k.tasks j).state = .runnable := by
  rw [htasks] at h
  by_cases hj : j = i
  · rw [hj, Function.update_self] at h
    exact absurd h.1 Bool.false_ne_true
  · rwa [Function.update_of_ne hj] at h

/-! ### The run -/

section Run

variable {i c base : ℕ} {m₁ : Machine}

/-- The machine in which the pages are mapped. -/
def preparedMachine (m₁ : Machine) (base need : ℕ) : Machine :=
  { m₁ with pmm := takeRun m₁.pmm base need }

/-- The top table and the kernel stack are there. -/
structure Prepared (k : Kernel) (need i c base : ℕ) (m₁ : Machine) : Prop where
  slot : freeTask k = some i
  space : vmmNewAddressSpace k.machine k.bootPml4 = (c * frameSize, m₁)
  pos : c ≠ 0
  stack : kmalloc m₁.pmm need = (true, takeRun m₁.pmm base need)
  grown : Grown (takeRun k.machine.pmm base need) (preparedMachine m₁ base need) c none {[]}
  taken : RunTaken k.machine.pmm (takeRun k.machine.pmm base need) base need
  heap : ∀ f, HeapTook k need f ↔ base ≤ f ∧ f < base + need

/-- There is no frame for the top table; the heap has no room; or both are there. -/
theorem prepared_cases (hpmm : PmmOk k.machine.pmm) (hslot : freeTask k = some i) (need : ℕ) :
    (vmmNewAddressSpace k.machine k.bootPml4 = (0, k.machine) ∧ freeCount k.machine.pmm = 0) ∨
      (∃ c m₁, vmmNewAddressSpace k.machine k.bootPml4 = (c * frameSize, m₁) ∧ c ≠ 0 ∧
        kmalloc m₁.pmm need = (false, m₁.pmm) ∧ m₁.pmm = (pmmAllocFrame k.machine.pmm).2 ∧
        Grown k.machine.pmm m₁ c none {[]}) ∨
      ∃ c base m₁, Prepared k need i c base m₁ := by
  rcases Grown.newSpace hpmm k.bootPml4 with hfull | ⟨c, m₁, heq, hne, hgrown⟩
  · exact Or.inl hfull
  have halloc : m₁.pmm = (pmmAllocFrame k.machine.pmm).2 := by
    have hsnd := vmmNewAddressSpace_pmm k.machine k.bootPml4
    rwa [heq] at hsnd
  right
  rcases kmalloc_cases hgrown.owns.pmm need with hfail | ⟨base, hstack, hrun⟩
  · exact Or.inl ⟨c, m₁, heq, hne, hfail, halloc, hgrown⟩
  · obtain ⟨htaken, hgrown'⟩ := hgrown.kmalloc hpmm hrun
    refine Or.inr ⟨c, base, m₁, hslot, heq, hne, hstack, hgrown', htaken, fun f ↦ ?_⟩
    rw [HeapTook, ← halloc, hstack, (runTaken_takeRun hgrown.owns.pmm hrun).marks]
    constructor
    · rintro ⟨hold | hin, hnot⟩
      · exact absurd hold hnot
      · exact hin
    · rintro ⟨hlo, hhi⟩
      refine ⟨Or.inr ⟨hlo, hhi⟩, fun hmark ↦ ?_⟩
      rw [Marked, hrun.2 f hlo hhi] at hmark
      exact Bool.false_ne_true hmark.2

namespace Prepared

variable (h : Prepared k need i c base m₁)

include h

/-- The outcome of the spawn is that of the loops. -/
theorem schedSpawn_eq (code : List Byte) :
    schedSpawn k code need =
      match loadImage (preparedMachine m₁ base need) (c * frameSize) k.blob code with
      | .error m => (-1, { k.setTask i Task.fresh with
          machine := vmmFreeAddressSpace m (c * frameSize) })
      | .ok m => (k.nextPid, Kernel.setTask
          { k.setTask i Task.fresh with machine := m, nextPid := (k.nextPid + 1) % 2 ^ 32 } i
          { Task.fresh with
            pid := k.nextPid
            hasKstack := true
            cr3 := c * frameSize
            user := true }) := by
  have hne : c * frameSize ≠ 0 := Nat.mul_ne_zero h.pos (by decide)
  rw [schedSpawn, h.slot]
  simp only [show (k.setTask i Task.fresh).machine = k.machine from rfl,
    show (k.setTask i Task.fresh).bootPml4 = k.bootPml4 from rfl,
    show (k.setTask i Task.fresh).blob = k.blob from rfl, h.space, if_neg hne, h.stack]
  rfl

/-- The condition, when the top table and the kernel stack are there. -/
theorem spawnFits_iff : SpawnFits k need ↔
    spawnCost k (spawnPages k) ≤ freeCount (takeRun k.machine.pmm base need) ∨
      ∃ j, 1 ≤ j ∧ j < spawnPages k ∧
        spawnCost k j = freeCount (takeRun k.machine.pmm base need) := by
  have hleft := h.taken.left
  have hcount := h.grown.count
  rw [Finset.card_singleton] at hcount
  have hroom : (kmalloc (pmmAllocFrame k.machine.pmm).2 need).1 = true := by
    have hsnd := vmmNewAddressSpace_pmm k.machine k.bootPml4
    rw [h.space] at hsnd
    rw [← hsnd, h.stack]
  rw [SpawnFits, h.slot, hroom, ← hleft]
  simp only [reduceCtorEq, true_and, false_or, Nat.add_le_add_iff_right, Nat.add_right_cancel_iff]
  refine or_iff_right ?_
  omega

/-- A frame of the address space, or in hand, that stays taken. -/
theorem not_allOrNothing_of_leak (code : List Byte) {m : Machine} {f : ℕ}
    (hload : loadImage (preparedMachine m₁ base need) (c * frameSize) k.blob code = .error m)
    (hf : Marked (vmmFreeAddressSpace m (c * frameSize)).pmm f)
    (hnew : ¬ Marked (takeRun k.machine.pmm base need) f) : ¬ AllOrNothing k code need := by
  have hspawn := h.schedSpawn_eq code
  rw [hload] at hspawn
  have hmark := (h.taken.marks f).not.mp hnew
  rw [not_or] at hmark
  refine not_allOrNothing (by rw [hspawn]) (f := f) (by rw [hspawn]; exact hf) hmark.1 ?_
  rw [h.heap]
  exact hmark.2

/-- All is given back when the frames run out between two pages. -/
theorem allOrNothing_of_free (code : List Byte) {m : Machine} {paths : Finset (List ℕ)}
    (hload : loadImage (preparedMachine m₁ base need) (c * frameSize) k.blob code = .error m)
    (hgrown : Grown (takeRun k.machine.pmm base need) m c none paths) (htop : [2] ∈ paths) :
    AllOrNothing k code need := by
  have hspawn := h.schedSpawn_eq code
  rw [hload] at hspawn
  have hmarks : ∀ f, Marked (vmmFreeAddressSpace m (c * frameSize)).pmm f ↔
      Marked k.machine.pmm f ∨ HeapTook k need f := by
    intro f
    rw [hgrown.marks_free htop, h.taken.marks, h.heap]
    exact or_iff_left nofun
  left
  rw [hspawn]
  exact ⟨rfl, fun f ↦ (hmarks f).mp, fun f hf ↦ (hmarks f).mpr (Or.inl hf),
    fun j ↦ runnable_of_fresh rfl⟩

/-- The process has its pages when they are all mapped, and only then. -/
theorem allOrNothing_ok_iff (code : List Byte) {m : Machine} {hand : Option ℕ}
    {paths : Finset (List ℕ)}
    (hload : loadImage (preparedMachine m₁ base need) (c * frameSize) k.blob code = .ok m)
    (hgrown : Grown (takeRun k.machine.pmm base need) m c hand paths) :
    AllOrNothing k code need ↔ ∀ va ∈ spawnVas k.blob.length, pathOf va ∈ paths := by
  have hspawn := h.schedSpawn_eq code
  rw [hload] at hspawn
  have hmapped : ∀ va ∈ spawnVas k.blob.length,
      (vmmTranslate m.mem (c * frameSize) va ≠ 0 ↔ pathOf va ∈ paths) := fun va hva ↦
    hgrown.translate_ne_zero_iff (pml4i_spawnVas va hva)
  rw [AllOrNothing, hspawn]
  constructor
  · rintro (⟨hfail, -⟩ | ⟨-, i', hi', -, hall⟩)
    · simp only at hfail
      omega
    · rw [h.slot, Option.some.injEq] at hi'
      subst hi'
      simp only [Kernel.setTask, Function.update_self] at hall
      exact fun va hva ↦ (hmapped va hva).mp (hall va hva)
  · refine fun hall ↦ Or.inr ⟨rfl, i, h.slot, ?_, ?_⟩
    · simp only [Kernel.setTask, Function.update_self]
    · simp only [Kernel.setTask, Function.update_self]
      exact fun va hva ↦ (hmapped va hva).mpr (hall va hva)

/-- The condition fails when the frames run out within the walk to page `j`, or before the first
page. -/
theorem not_spawnFits {j : ℕ} (hj : j < spawnPages k)
    (hlow : spawnCost k j ≤ freeCount (takeRun k.machine.pmm base need))
    (hstrict : j = 0 ∨ spawnCost k j < freeCount (takeRun k.machine.pmm base need))
    (hhigh : freeCount (takeRun k.machine.pmm base need) < spawnCost k (j + 1)) :
    ¬ SpawnFits k need := by
  rw [h.spawnFits_iff]
  rintro (hall | ⟨j', hone, hlt, heq⟩)
  · have hle := spawnCost_le (show j + 1 ≤ spawnPages k from hj) (le_refl _)
    omega
  · rcases Nat.lt_or_ge j j' with hafter | hbefore
    · have hle := spawnCost_le (show j + 1 ≤ j' from hafter) hlt.le
      omega
    · have hle := spawnCost_le hbefore hj.le
      omega

/-- Stuck in the walk to a page, the spawn leaves a frame behind or starts a process without the last
page. -/
theorem not_allOrNothing_of_stuck (code : List Byte) {m : Machine} {j f : ℕ}
    {paths : Finset (List ℕ)}
    (hstuck : Stuck (takeRun k.machine.pmm base need) c {[]} (spawnVas k.blob.length) m j f paths)
    (hres : loadImage (preparedMachine m₁ base need) (c * frameSize) k.blob code = .error m ∨
      loadImage (preparedMachine m₁ base need) (c * frameSize) k.blob code = .ok m) :
    ¬ AllOrNothing k code need := by
  rcases hres with hres | hres
  · refine h.not_allOrNothing_of_leak code hres hstuck.grown.marked_hand fun hold ↦ ?_
    exact (hstuck.grown.fresh f hold).1 rfl
  · rw [h.allOrNothing_ok_iff code hres hstuck.grown]
    intro hall
    obtain ⟨va, hget⟩ : ∃ va, (spawnVas k.blob.length)[j]? = some va :=
      ⟨_, List.getElem?_eq_getElem hstuck.lt⟩
    have hin := hall va (List.mem_of_getElem? hget)
    exact hstuck.miss va hget (hstuck.grown.mem_of_cons
      (treePath_of_pml4i (pml4i_spawnVas va (List.mem_of_getElem? hget))) hin)

/-- The outcomes of the loops, one by one. -/
theorem allOrNothing_iff (code : List Byte)
    (hload : Loading (takeRun k.machine.pmm base need) c {[]} (spawnVas k.blob.length)
      (loadImage (preparedMachine m₁ base need) (c * frameSize) k.blob code)) :
    AllOrNothing k code need ↔ SpawnFits k need := by
  generalize hres : loadImage (preparedMachine m₁ base need) (c * frameSize) k.blob code = res
    at hload
  cases hload with
  | mapped hgrown =>
    refine iff_of_true ?_ (h.spawnFits_iff.mpr (Or.inl ?_))
    · rw [h.allOrNothing_ok_iff code hres hgrown]
      exact fun va hin ↦ mem_withPages.mpr (Or.inr ⟨va, hin, List.suffix_rfl⟩)
    · have hcount := hgrown.count
      rw [spawnCost, spawnPages, List.take_length, treeOf]
      omega
  | @short m j hj hfull hgrown =>
    have hcount := hgrown.count
    rw [hfull] at hcount
    have hcost : spawnCost k j = freeCount (takeRun k.machine.pmm base need) := by
      rw [spawnCost, treeOf]
      simp only [Option.toList, List.length_nil] at hcount
      omega
    rcases Nat.eq_zero_or_pos j with rfl | hpos
    · -- nothing is mapped yet, and the top table is not given back
      have hroot := Grown.marked_root hgrown
      refine iff_of_false (h.not_allOrNothing_of_leak code hres hroot.1 hroot.2)
        (h.not_spawnFits hj hcost.le (Or.inl rfl) ?_)
      rw [← hcost]
      exact spawnCost_lt (Nat.lt_succ_self 0) hj
    · refine iff_of_true (h.allOrNothing_of_free code hres hgrown ?_)
        (h.spawnFits_iff.mpr (Or.inr ⟨j, hpos, hj, hcost⟩))
      obtain ⟨va, hget⟩ : ∃ va, (spawnVas k.blob.length)[0]? = some va :=
        ⟨_, List.getElem?_eq_getElem (hpos.trans hj)⟩
      refine mem_withPages.mpr (Or.inr ⟨va, List.mem_of_getElem? (i := 0) (by
        rw [List.getElem?_take_of_lt hpos, hget]), ?_⟩)
      rw [pathOf, pml4i_spawnVas va (List.mem_of_getElem? hget)]
      exact ⟨[pti va, pdi va, pdpti va], rfl⟩
  | stuck hstuck =>
    obtain ⟨hlow, hhigh⟩ := hstuck.between pml4i_spawnVas
    exact iff_of_false (h.not_allOrNothing_of_stuck code hstuck (Or.inl hres))
      (h.not_spawnFits hstuck.lt hlow.le (Or.inr hlow) hhigh)
  | unseen hstuck hlast =>
    obtain ⟨hlow, hhigh⟩ := hstuck.between pml4i_spawnVas
    exact iff_of_false (h.not_allOrNothing_of_stuck code hstuck (Or.inr hres))
      (h.not_spawnFits hstuck.lt hlow.le (Or.inr hlow) hhigh)

end Prepared

/-- Without a frame for the top table nothing happens. -/
theorem allOrNothing_of_full (hslot : freeTask k = some i)
    (hspace : vmmNewAddressSpace k.machine k.bootPml4 = (0, k.machine)) :
    AllOrNothing k code need := by
  have hspawn : schedSpawn k code need =
      (-1, { k.setTask i Task.fresh with machine := k.machine }) := by
    rw [schedSpawn, hslot]
    simp only [show (k.setTask i Task.fresh).machine = k.machine from rfl,
      show (k.setTask i Task.fresh).bootPml4 = k.bootPml4 from rfl, hspace, if_pos]
  left
  rw [hspawn]
  exact ⟨rfl, fun f ↦ Or.inl, fun f ↦ id, fun j ↦ runnable_of_fresh rfl⟩

/-- Without room for the kernel stack the top table is not given back. -/
theorem not_allOrNothing_of_noRoom (hslot : freeTask k = some i)
    (hspace : vmmNewAddressSpace k.machine k.bootPml4 = (c * frameSize, m₁)) (hne : c ≠ 0)
    (hstack : kmalloc m₁.pmm need = (false, m₁.pmm))
    (hgrown : Grown k.machine.pmm m₁ c none {[]}) : ¬ AllOrNothing k code need := by
  have hspawn : schedSpawn k code need = (-1, { k.setTask i Task.fresh with
      machine := vmmFreeAddressSpace m₁ (c * frameSize) }) := by
    have hne' : c * frameSize ≠ 0 := Nat.mul_ne_zero hne (by decide)
    rw [schedSpawn, hslot]
    simp only [show (k.setTask i Task.fresh).machine = k.machine from rfl,
      show (k.setTask i Task.fresh).bootPml4 = k.bootPml4 from rfl, hspace, if_neg hne', hstack,
      if_pos]
  have halloc := vmmNewAddressSpace_pmm k.machine k.bootPml4
  rw [hspace] at halloc
  refine not_allOrNothing (by rw [hspawn]) (f := c) (by rw [hspawn]; exact hgrown.marked_root.1)
    hgrown.marked_root.2 ?_
  rw [HeapTook, ← halloc, hstack]
  exact fun htook ↦ htook.2 htook.1

end Run

/-! ### All or nothing -/

theorem length_pagesFrom (base count : ℕ) : (pagesFrom base count).length = count := by
  rw [pagesFrom, List.length_map, List.length_range]

/-- The pages before the copy of the script. -/
theorem take_spawnVas (n : ℕ) : (spawnVas n).take (n + 8) =
    pagesFrom userImageBase n ++ pagesFrom userScriptBase 8 := by
  rw [spawnVas, List.take_left']
  rw [List.length_append, length_pagesFrom, length_pagesFrom]

/-- A spawn is all or nothing exactly when the frames do not run out before the first page or within
a walk. -/
theorem spawn_allOrNothing_iff (hpmm : PmmOk k.machine.pmm) (hcopy : CopyFits k code need) :
    AllOrNothing k code need ↔ SpawnFits k need := by
  rcases hslot : freeTask k with - | i
  · refine iff_of_true ?_ (Or.inl hslot)
    rw [AllOrNothing, schedSpawn_full hslot]
    exact Or.inl ⟨rfl, fun f ↦ Or.inl, fun f ↦ id, fun j ↦ id⟩
  rcases prepared_cases hpmm hslot need with
    ⟨hspace, hfull⟩ | ⟨c, m₁, hspace, hne, hstack, halloc, hgrown⟩ | ⟨c, base, m₁, h⟩
  · exact iff_of_true (allOrNothing_of_full hslot hspace) (Or.inr (Or.inl hfull))
  · refine iff_of_false (not_allOrNothing_of_noRoom hslot hspace hne hstack hgrown) ?_
    have hcount := hgrown.count
    rw [Finset.card_singleton] at hcount
    rw [SpawnFits, hslot, ← halloc, hstack]
    simp only [reduceCtorEq, Bool.false_eq_true, false_and, or_false, false_or]
    omega
  · refine h.allOrNothing_iff code (h.grown.loadImage k.blob_fits (hcopy.imp_right fun hfew ↦ ?_))
    have hleft := h.taken.left
    rw [spawnCost, take_spawnVas] at hfew
    omega

/-- A spawn with frames to spare. -/
theorem spawn_allOrNothing_iff_small : AllOrNothing smallKernel [0x61] 0 :=
  (spawn_allOrNothing_iff smallKernel_booted.pmm (Or.inl (by decide))).mpr
    (Or.inr (Or.inr ⟨by decide, Or.inl (by decide +kernel)⟩))

/-- The same machine with one free frame. -/
def lastFrameKernel : Kernel :=
  { smallKernel with
    machine :=
      { mem := smallKernel.machine.mem
        pmm :=
          { bitmap := List.replicate 39 0xFF ++ [0x7F]
            totalFrames := 320
            freeFrames := 1 } } }

/-- The top table takes the last frame and is not given back. -/
theorem spawn_keeps_top_table : PmmOk lastFrameKernel.machine.pmm ∧
    ¬ AllOrNothing lastFrameKernel [0x61] 0 := by
  refine ⟨⟨by decide, by decide, by decide⟩, ?_⟩
  have hmark : Marked (schedSpawn lastFrameKernel [0x61] 0).2.machine.pmm 319 :=
    ⟨by decide +kernel, by decide +kernel⟩
  refine not_allOrNothing (by decide +kernel) hmark ?_ fun htook ↦ htook.2 htook.1
  exact fun hold ↦ absurd hold.2 (by decide)

end NoOsKernel.Mm
