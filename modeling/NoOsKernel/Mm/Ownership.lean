import NoOsKernel.Mm.KernelInv

/-!
# Frame ownership and the read-only window over whole runs

The invariant holds after boot and is kept by every step, as long as no page of the model window is
swapped out by `SYS_SWAP_OUT` and no script runs over its first page. From it: every frame mapped in
a live address space is marked and mapped once, and no entry of the window is writable.

`swap_out` is what breaks it. It frees the frame of a model page without telling the model window,
which later frees it again, and `swap_in` maps the page back with write permission.
-/

set_option autoImplicit false
set_option relaxedAutoImplicit false

namespace NoOsKernel.Mm

open Lib Lib.Radix

namespace KernelInv

variable {k k' : Kernel}

/-! ### System calls and faults -/

theorem growHeap (h : KernelInv k) {i : ℕ} (hcr3 : (k.tasks i).cr3 ≠ 0) (count : ℕ)
    (hcount : (k.tasks i).heapPages + count ≤ 512) : KernelInv (Mm.growHeap k i count).2 := by
  induction count generalizing k with
  | zero => exact h
  | succ count ih =>
    have hok := h.tasks i
    have hlo : userImageBase ≤ userHeapBase + (k.tasks i).heapPages * 4096 := by
      rw [userImageBase, userHeapBase]
      omega
    have hhi : userHeapBase + (k.tasks i).heapPages * 4096 < userModelBase := by
      rw [userModelBase, userHeapBase]
      omega
    have hspec := h.mem.mapFresh (root_eq i hcr3) (isUserVa_of_low hlo hhi) hhi
      (some fun _ ↦ 0) (vmmUser ||| vmmWrite)
    rw [hok.aligned] at hspec
    simp only [Mm.growHeap]
    rcases hspec with hfail | ⟨f, m', heq, hmem, -⟩
    · rw [hfail]
      exact h.of_machine rfl rfl h.mem
    · rw [heq]
      refine ih (h.of_fields rfl rfl ⟨hok.aligned, hok.live, ?_, hok.arrays, hok.resident,
        hok.swapped⟩ rfl rfl hmem) ?_ ?_
      · simp only
        omega
      · simpa only [Kernel.setTask, Function.update_self] using hcr3
      · simp only [Kernel.setTask, Function.update_self]
        omega

theorem sysAlloc (h : KernelInv k) {i : ℕ} (hcr3 : (k.tasks i).cr3 ≠ 0) (n : ℕ) :
    KernelInv (Mm.sysAlloc k i n).2 := by
  simp only [Mm.sysAlloc]
  split_ifs with hfull hfail
  · exact h
  all_goals
    have hheap := (h.tasks i).heap
    have hgrown := h.growHeap hcr3 ((((k.tasks i).heapUsed + (n + 15) % 2 ^ 64 / 16 * 16) % 2 ^ 64 +
      4095) / 4096 - (k.tasks i).heapPages) (by omega)
  · exact hgrown
  · have hok := hgrown.tasks i
    exact hgrown.of_fields rfl rfl ⟨hok.aligned, hok.live, hok.heap, hok.arrays, hok.resident,
      hok.swapped⟩ rfl rfl hgrown.mem

theorem sysModelBudget (h : KernelInv k) (i kb : ℕ) : KernelInv (Mm.sysModelBudget k i kb) := by
  have hok := h.tasks i
  exact h.of_fields rfl rfl ⟨hok.aligned, hok.live, hok.heap, hok.arrays, hok.resident,
    hok.swapped⟩ rfl rfl h.mem

theorem sysModelCommit (h : KernelInv k) (i pages : ℕ) :
    KernelInv (Mm.sysModelCommit k i pages) := by
  simp only [Mm.sysModelCommit]
  split_ifs with hover
  · exact h
  · have hok := h.tasks i
    exact h.of_fields rfl rfl ⟨hok.aligned, hok.live, hok.heap, hok.arrays, hok.resident,
      hok.swapped⟩ rfl rfl h.mem

theorem sysModelTouch (h : KernelInv k) {i : ℕ} (hcr3 : (k.tasks i).cr3 ≠ 0) (pg : ℕ)
    (need : HeapNeed) : KernelInv (Mm.sysModelTouch k i pg need) := by
  rw [Mm.sysModelTouch]
  split_ifs
  · exact h
  · exact (h.modelDemandFault hcr3 _ _ need).1

/-- The predictor is no part of the invariant. -/
theorem setPgpred (h : KernelInv k) (hist : PgHist) : KernelInv { k with pgpred := hist } :=
  h.of_machine rfl rfl h.mem

theorem schedExitUser (h : KernelInv k) (i : ℕ) : KernelInv (Mm.schedExitUser k i) := by
  have hentries : ∀ e ∈ (if k.swap.active = false then (k.tasks i).swapMap else []),
      e ∈ (k.tasks i).swapMap := by
    split_ifs
    · exact fun e he ↦ he
    · exact fun e he ↦ absurd he List.not_mem_nil
  have hok := h.tasks i
  rw [schedExitUser_eq]
  refine h.of_task rfl rfl ⟨by rw [Nat.zero_div, Nat.zero_mul], fun hl ↦ absurd rfl hl.2, hok.heap,
    Or.inl ⟨rfl, rfl⟩, fun pg hpg ↦ Bool.noConfusion hpg,
    fun e he ↦ hok.swapped e (hentries e he)⟩ ?_
  rw [taskHeld_of_no_map rfl]
  simp only [Kernel.setTask]
  by_cases hcr3 : (k.tasks i).cr3 = 0
  · rw [if_pos hcr3]
    exact h.mem.forget i
  · rw [if_neg hcr3]
    have hfree := h.mem.freeSpace (root_eq i hcr3)
    rwa [hok.aligned] at hfree

theorem modelOrKill (h : KernelInv k) {i : ℕ} (hcr3 : (k.tasks i).cr3 ≠ 0) (cr2 err : ℕ)
    (need need' : HeapNeed) : KernelInv (Mm.modelOrKill k i cr2 err need need') := by
  obtain ⟨hinv, hsame⟩ := h.modelDemandFault hcr3 cr2 err need
  simp only [Mm.modelOrKill]
  split_ifs
  · exact (hinv.setPgpred _).modelPrefetch (hsame ▸ hcr3) need'
  · exact (hinv.setPgpred _).schedExitUser i

theorem pageFault (h : KernelInv k) {i : ℕ} (hcr3 : (k.tasks i).cr3 ≠ 0) (cr2 err : ℕ)
    (need need' : HeapNeed) : KernelInv (Mm.pageFault k i cr2 err need need') := by
  obtain ⟨hinv, hsame, -⟩ := h.swapIn i cr2
  simp only [Mm.pageFault]
  split_ifs
  · exact (hinv.setPgpred _).swapPrefetch i
  · exact hinv.modelOrKill (hsame ▸ hcr3) cr2 err need need'
  · exact h.modelOrKill hcr3 cr2 err need need'

/-- A task writes to a page of its own, which is no table. -/
theorem userStore_cases (h : KernelInv k) {i : ℕ} (hcr3 : (k.tasks i).cr3 ≠ 0) (va : ℕ) (b : Byte) :
    Mm.userStore k i va b = k ∨ ∃ addr,
      Mm.userStore k i va b = { k with machine := pokeByte k.machine addr b } ∧
        ¬ IsTable 4 2 pteFrame k.machine.mem (rootOf k) (addr / frameSize) := by
  rw [Mm.userStore]
  rcases hleaf : leafOf k.machine.mem (k.tasks i).cr3 va with - | e
  · exact Or.inl rfl
  simp only
  split_ifs with hallowed
  · rw [h.leafOf_task hcr3] at hleaf
    have hpath := isLeaf_pathOf hallowed.1
    obtain ⟨f, v, -, -, hv⟩ := link_eq_some.mp hleaf
    have hframe : pteAddr e / frameSize = v := by
      rw [pteFrame] at hv
      split_ifs at hv with hpresent
      exact Option.some.inj hv
    have hnode : node pteFrame k.machine.mem (rootOf k i) (pathOf va) = some v := by
      rw [pathOf] at hleaf ⊢
      rw [node_cons, hleaf]
      exact hv
    have halign := pteAddr_div_mul e
    have hdiv : (pteAddr e + va % 4096) / frameSize = v := by
      rw [frameSize] at hframe halign ⊢
      omega
    refine Or.inr ⟨_, rfl, ?_⟩
    rw [hdiv]
    exact not_isTable_of_leaf h.mem.owns.excl hpath.1 hpath.2 hnode
  · exact Or.inl rfl

theorem userStore (h : KernelInv k) {i : ℕ} (hcr3 : (k.tasks i).cr3 ≠ 0) (va : ℕ) (b : Byte) :
    KernelInv (Mm.userStore k i va b) := by
  rcases h.userStore_cases hcr3 va b with heq | ⟨addr, heq, hnot⟩
  · rw [heq]
    exact h
  · rw [heq]
    refine h.of_machine rfl rfl (h.mem.poke [b] hnot rfl ?_)
    have hlt := Nat.mod_lt addr (by decide : 0 < frameSize)
    rw [List.length_singleton]
    omega

theorem schedSpawn (h : KernelInv k) {code : List Byte} (hcode : code.length ≤ 4095) (need : ℕ) :
    KernelInv (Mm.schedSpawn k code need).2 := by
  rw [Mm.schedSpawn]
  rcases freeTask k with - | i
  · exact h
  simp only
  have hfresh : TaskOk k.winPages Task.fresh :=
    ⟨rfl, fun hl ↦ absurd hl.1 Bool.false_ne_true, by decide, Or.inl ⟨rfl, rfl⟩,
      fun pg hpg ↦ Bool.noConfusion hpg, fun e he ↦ absurd he List.not_mem_nil⟩
  -- the slot is cleared first, and stays cleared when the spawn fails
  have hclear : ∀ {m : Machine} {pid : ℕ},
      MemInv m (Function.update (rootOf k) i none) (MemInv.dropHeld (heldOf k) i) none →
        KernelInv { k.setTask i Task.fresh with machine := m, nextPid := pid } := by
    intro m pid hmem
    exact h.of_task rfl rfl hfresh hmem
  simp only [show (k.setTask i Task.fresh).machine = k.machine from rfl,
    show (k.setTask i Task.fresh).bootPml4 = k.bootPml4 from rfl,
    show (k.setTask i Task.fresh).blob = k.blob from rfl]
  rcases (h.mem.forget i).newSpace i k.bootPml4 with hfail | ⟨c, m, heq, hne, hmem⟩
  · rw [hfail, if_pos rfl]
    exact hclear (h.mem.forget i)
  have hcr3 : c * frameSize ≠ 0 := Nat.mul_ne_zero hne (by decide)
  have hdiv : c * frameSize / frameSize = c := Nat.mul_div_cancel _ (by decide)
  rw [heq, if_neg hcr3]
  have hdrop : MemInv.dropHeld (MemInv.dropHeld (heldOf k) i) i = MemInv.dropHeld (heldOf k) i :=
    Function.update_idem ..
  rw [Function.update_idem, hdrop] at hmem
  have hstack := hmem.kmalloc need
  have hroot : Function.update (rootOf k) i (some c) i = some c := Function.update_self ..
  have hfree : ∀ {m : Machine}, MemInv m (Function.update (rootOf k) i (some c))
      (MemInv.dropHeld (heldOf k) i) none →
      KernelInv { k.setTask i Task.fresh with machine := vmmFreeAddressSpace m (c * frameSize) } := by
    intro m hm
    have hfelled := hm.freeSpace hroot
    rw [Function.update_idem, hdrop] at hfelled
    exact hclear hfelled
  split_ifs with hnostack
  · exact hfree hstack
  · obtain ⟨m', hres, hloaded⟩ := hstack.loadImage hroot k.blob_fits hcode
    rcases hres with hfail | hok
    · rw [hfail]
      exact hfree hloaded
    · rw [hok]
      refine h.of_task (i := i) rfl (Function.update_idem ..) ⟨?_, fun _ ↦ hcr3, Nat.zero_le _,
        Or.inl ⟨rfl, rfl⟩, fun pg hpg ↦ Bool.noConfusion hpg,
        fun e he ↦ absurd he List.not_mem_nil⟩ ?_
      · simp only [hdiv]
      · rw [taskHeld_of_no_map rfl, taskRoot_of_ne hcr3]
        simp only [hdiv]
        exact hloaded

/-! ### Runs -/

theorem of_booted (h : Booted k) : KernelInv k := by
  have hroot : rootOf k = fun _ ↦ none := by
    funext i
    rw [rootOf, taskRoot, if_pos (h.tasks i).2.1]
  have hheld : heldOf k = fun _ _ ↦ none := by
    funext i
    rw [heldOf, taskHeld_of_no_map (h.tasks i).2.2.2.2.1]
  refine ⟨?_, fun i ↦ ?_, h.window⟩
  · rw [hroot, hheld]
    have hnone : ∀ o, owners 4 2 pteFrame k.machine.mem (fun _ : ℕ ↦ (none : Option ℕ))
        (looseOf k.machine.mem (fun _ ↦ none) (fun _ _ ↦ none) none) o = none := by
      intro o
      cases o with
      | inl tp => simp only [owners, node_none, ite_self]
      | inr e => cases e <;> simp [owners, looseOf]
    refine ⟨⟨h.pmm, ⟨fun o f ho ↦ ?_, fun o o' f ho _ ↦ ?_⟩⟩, fun t pg w _ hlink ↦ ?_,
      fun t pg f hheld ↦ by cases hheld⟩
    · rw [hnone] at ho
      cases ho
    · rw [hnone] at ho
      cases ho
    · rw [pathOf, link_eq_none.mpr (node_none _)] at hlink
      cases hlink
  · obtain ⟨huser, hcr3, hheap, hframes, hmap, hswap⟩ := h.tasks i
    refine ⟨by rw [hcr3, Nat.zero_div, Nat.zero_mul], fun hl ↦ ?_, by rw [hheap]; omega,
      Or.inl ⟨hframes, hmap⟩, fun pg hpg ↦ ?_, fun e he ↦ ?_⟩
    · rw [Task.Live, huser] at hl
      exact absurd hl.1 Bool.false_ne_true
    · rw [modelPageResident, hmap] at hpg
      exact Bool.noConfusion hpg
    · rw [hswap] at he
      exact absurd he List.not_mem_nil

end KernelInv

/-- Steps that stay clear of the two slips: `SYS_SWAP_OUT` takes no page of the model window, and a
script ends within the first scratch page. -/
def Careful (k : Kernel) (op : Op) : Prop :=
  CanHappen k op ∧ (∀ a ∈ op.swapOut?, a.2 < userModelBase ∨ SwapRefused k a.1 a.2) ∧
    ∀ code ∈ op.script?, code.length ≤ 4095

instance (k : Kernel) (op : Op) : Decidable (Careful k op) := inferInstanceAs (Decidable (_ ∧ _))

namespace KernelInv

variable {k k' : Kernel}

/-- One careful step. -/
theorem step (h : KernelInv k) {op : Op} (hop : Careful k op) : KernelInv (Mm.step k op) := by
  obtain ⟨⟨htask, hregion⟩, hswap, hscript⟩ := hop
  have hlive : ∀ i, op.task? = some i → (k.tasks i).cr3 ≠ 0 :=
    fun i hi ↦ (h.tasks i).live (htask i hi).2
  cases op with
  | spawn code need => exact h.schedSpawn (hscript code rfl) need
  | alloc i n => exact h.sysAlloc (hlive i rfl) n
  | modelBudget i kb => exact h.sysModelBudget i kb
  | modelCommit i pages => exact h.sysModelCommit i pages
  | modelTouch i pg need => exact h.sysModelTouch (hlive i rfl) pg need
  | modelEvict i pg => exact h.modelEvictPage i pg
  | swapOut i va =>
    refine h.swapOut ?_
    rcases hswap (i, va) rfl with hlow | hrefused
    · exact Or.inr ⟨(hregion (i, va) rfl).1, hlow⟩
    · exact Or.inl hrefused
  | fault i cr2 err need need' => exact h.pageFault (hlive i rfl) cr2 err need need'
  | store i va b => exact h.userStore (hlive i rfl) va b
  | exit i => exact h.schedExitUser i
  | invalidateAll weights =>
    have hnew : KernelInv { k with weights := weights } := h.of_machine rfl rfl h.mem
    exact hnew.modelInvalidateAll
  | reclaim => exact h.swapReclaim
  | kernelAlloc need => exact h.of_machine rfl rfl (h.mem.kmalloc need)

/-- Every state of a careful run from boot. -/
theorem of_run (hboot : Booted k) (hrun : Run Mm.step Careful k k') : KernelInv k' :=
  hrun.invariant KernelInv (of_booted hboot) fun _ _ hinv hop ↦ hinv.step hop

end KernelInv

/-! ### Frames are owned -/

/-- A frame is mapped at an address of the user half of a live address space. -/
def Mapped (k : Kernel) (i va f : ℕ) : Prop :=
  (k.tasks i).cr3 ≠ 0 ∧ IsUserVa va ∧
    ∃ e, leafOf k.machine.mem (k.tasks i).cr3 va = some e ∧ pteAddr e / frameSize = f

/-- Every mapped frame is marked in the bitmap and mapped at one page of one task. -/
structure FramesOwned (k : Kernel) : Prop where
  marked : ∀ i va f, Mapped k i va f → Marked k.machine.pmm f
  unique : ∀ i va i' va' f, Mapped k i va f → Mapped k i' va' f → i = i' ∧ va / 4096 = va' / 4096

theorem owner_of_mapped {k : Kernel} (h : KernelInv k) {i va f : ℕ} (hmapped : Mapped k i va f) :
    owners 4 2 pteFrame k.machine.mem (rootOf k)
      (looseOf k.machine.mem (rootOf k) (heldOf k) none) (.inl (i, pathOf va)) = some f := by
  obtain ⟨hcr3, hva, e, hleaf, hframe⟩ := hmapped
  rw [h.leafOf_task hcr3] at hleaf
  obtain ⟨g, v, -, -, hv⟩ := link_eq_some.mp hleaf
  have hfe : pteFrame e = some f := by
    rw [pteFrame] at hv ⊢
    split_ifs at hv ⊢ with hpresent
    rw [hframe]
  refine owners_node.mpr ⟨treePath_pathOf hva, ?_⟩
  rw [pathOf] at hleaf ⊢
  rw [node_cons, hleaf]
  exact hfe

theorem KernelInv.framesOwned {k : Kernel} (h : KernelInv k) : FramesOwned k := by
  constructor
  · intro i va f hmapped
    exact (h.mem.owns.excl.marked_of_own _ f (owner_of_mapped h hmapped)).2
  · intro i va i' va' f hmapped hmapped'
    have hsame := h.mem.owns.excl.own_inj _ _ f (owner_of_mapped h hmapped)
      (owner_of_mapped h hmapped')
    rw [Sum.inl.injEq, Prod.mk.injEq] at hsame
    exact ⟨hsame.1, pathOf_inj hmapped.2.1 hmapped'.2.1 hsame.2⟩

/-- In every state of a run from boot whose steps swap out no page of the model window and spawn
scripts of one page, every mapped frame is marked and mapped once, and the next such step frees no
frame that stays mapped. -/
theorem framesOwned_of_run {k k' : Kernel} (hboot : Booted k) (hrun : Run step Careful k k') :
    FramesOwned k' ∧ ∀ op, Careful k' op → ∀ f, Marked k'.machine.pmm f →
      ¬ Marked (step k' op).machine.pmm f → ∀ i va, ¬ Mapped (step k' op) i va f := by
  have hinv := KernelInv.of_run hboot hrun
  refine ⟨hinv.framesOwned, fun op hop f _ hfreed i va hmapped ↦ ?_⟩
  exact hfreed ((hinv.step hop).framesOwned.marked i va f hmapped)

/-- A machine of 320 frames, the first 256 of them reserved, with a window of 16 pages. -/
def smallKernel : Kernel where
  machine :=
    { mem := fun _ _ ↦ 0
      pmm :=
        { bitmap := List.replicate 32 0xFF ++ List.replicate 8 0
          totalFrames := 320
          freeFrames := 64 } }
  tasks := fun _ ↦ Task.fresh
  nextPid := 1
  winPages := 16
  weights := fun _ _ ↦ 0
  swap :=
    { active := true
      slots := [0]
      pages := 8
      store := fun _ _ ↦ 0
      swapsOut := 0
      swapsIn := 0
      reclaims := 0 }
  pgpred := PgHist.empty
  bootPml4 := 0x100000
  blob := []
  blob_fits := nil_blob_fits

theorem smallKernel_booted : Booted smallKernel :=
  ⟨⟨by decide, by decide, by decide⟩, fun _ ↦ ⟨rfl, rfl, rfl, rfl, rfl, rfl⟩, by decide⟩

/-- A task touches a model page, swaps a page of its stack out and in, allocates, evicts the model
page and ends. -/
def carefulOps : List Op :=
  [.spawn [] 0, .modelTouch 1 0 ⟨0, 0⟩, .swapOut 1 userStackBase, .alloc 1 1,
    .fault 1 userStackBase 0 ⟨0, 0⟩ ⟨0, 0⟩, .modelEvict 1 0]

theorem carefulOps_run : Run step Careful smallKernel (carefulOps.foldl step smallKernel) :=
  Run.refl.of_admits carefulOps (by decide +kernel)

/-- The theorem at a run that uses all three subsystems. -/
theorem framesOwned_of_run_smallKernel : FramesOwned (carefulOps.foldl step smallKernel) :=
  (framesOwned_of_run smallKernel_booted carefulOps_run).1

/-- A task touches a model page and swaps it out; its frame serves the heap; the eviction of the
model page frees it. -/
def evictSwapped : List Op :=
  [.spawn [] 0, .modelTouch 1 0 ⟨0, 0⟩, .swapOut 1 userModelBase, .alloc 1 1, .modelEvict 1 0]

/-- A frame is mapped in the heap of a live task, and free. -/
theorem framesOwned_fails_after_evictSwapped : Booted smallKernel ∧
    Run step CanHappen smallKernel (evictSwapped.foldl step smallKernel) ∧
    ¬ FramesOwned (evictSwapped.foldl step smallKernel) := by
  have hrun : Admits step CanHappen smallKernel evictSwapped ∧
      ((evictSwapped.foldl step smallKernel).tasks 1).cr3 ≠ 0 ∧
      leafOf (evictSwapped.foldl step smallKernel).machine.mem
        ((evictSwapped.foldl step smallKernel).tasks 1).cr3 userHeapBase = some 0x11D007#64 ∧
      bitGet (evictSwapped.foldl step smallKernel).machine.pmm.bitmap 0x11D = false := by
    decide +kernel
  obtain ⟨hadmits, hcr3, hleaf, hfree⟩ := hrun
  refine ⟨smallKernel_booted, Run.refl.of_admits evictSwapped hadmits, fun h ↦ ?_⟩
  have hmarked := (h.marked 1 userHeapBase 0x11D ⟨hcr3, by decide, _, hleaf, by decide⟩).2
  rw [hfree] at hmarked
  exact Bool.noConfusion hmarked

/-! ### The window is read-only -/

/-- No entry for a page of the model window of a task is present and writable. -/
def WindowReadOnly (k : Kernel) : Prop :=
  ∀ i va e, (k.tasks i).cr3 ≠ 0 → modelInRange k va = true →
    leafOf k.machine.mem (k.tasks i).cr3 va = some e → writable e = false

theorem KernelInv.windowReadOnly {k : Kernel} (h : KernelInv k) : WindowReadOnly k := by
  intro i va e hcr3 hrange hleaf
  rw [modelInRange, Bool.and_eq_true, decide_eq_true_eq, decide_eq_true_eq] at hrange
  have hwin := h.window
  have hpg : (va - userModelBase) / 4096 < modelPages := by omega
  have hpath : pathOf va = pathOf (modelVa ((va - userModelBase) / 4096)) := by
    have hpage : va / 4096 = modelVa ((va - userModelBase) / 4096) / 4096 := by
      rw [modelVa]
      simp only [userModelBase] at hrange ⊢
      omega
    simp only [pathOf, pti, pdi, pdpti, pml4i, List.cons.injEq, and_true]
    omega
  rw [h.leafOf_task hcr3, hpath] at hleaf
  exact (h.mem.backed i _ e hpg hleaf).1

/-- In every state of a run from boot whose steps swap out no page of the model window and spawn
scripts of one page, the window is read-only. -/
theorem windowReadOnly_of_run {k k' : Kernel} (hboot : Booted k) (hrun : Run step Careful k k') :
    WindowReadOnly k' :=
  (KernelInv.of_run hboot hrun).windowReadOnly

/-- The theorem at the same run. -/
theorem windowReadOnly_of_run_smallKernel : WindowReadOnly (carefulOps.foldl step smallKernel) :=
  windowReadOnly_of_run smallKernel_booted carefulOps_run

/-- A task touches a model page, swaps it out, and faults on it. -/
def faultSwapped : List Op :=
  [.spawn [] 0, .modelTouch 1 0 ⟨0, 0⟩, .swapOut 1 userModelBase,
    .fault 1 userModelBase 0 ⟨0, 0⟩ ⟨0, 0⟩]

/-- The model page is back, and writable. -/
theorem windowReadOnly_fails_after_faultSwapped : Booted smallKernel ∧
    Run step CanHappen smallKernel (faultSwapped.foldl step smallKernel) ∧
    ¬ WindowReadOnly (faultSwapped.foldl step smallKernel) := by
  have hrun : Admits step CanHappen smallKernel faultSwapped ∧
      ((faultSwapped.foldl step smallKernel).tasks 1).cr3 ≠ 0 ∧
      modelInRange (faultSwapped.foldl step smallKernel) userModelBase = true ∧
      leafOf (faultSwapped.foldl step smallKernel).machine.mem
        ((faultSwapped.foldl step smallKernel).tasks 1).cr3 userModelBase =
          some 0x11D007#64 := by
    decide +kernel
  obtain ⟨hadmits, hcr3, hrange, hleaf⟩ := hrun
  refine ⟨smallKernel_booted, Run.refl.of_admits faultSwapped hadmits, fun h ↦ ?_⟩
  exact absurd (h 1 userModelBase 0x11D007#64 hcr3 hrange hleaf) (by decide)

end NoOsKernel.Mm
