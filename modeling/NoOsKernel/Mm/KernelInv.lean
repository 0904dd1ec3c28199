import NoOsKernel.Mm.Residency
import NoOsKernel.Mm.Syscall

/-!
# The invariant of the memory subsystems

What the kernel keeps true across its tasks: the invariant of the machine for the address spaces and
model records of the tasks, and the bounds that keep every address the kernel maps by itself below
the model window. One lemma for each operation of `swap.c`, `model.c`, `sched.c` and `syscall.c`.
-/

set_option autoImplicit false
set_option relaxedAutoImplicit false

namespace NoOsKernel.Mm

open Lib Lib.Radix

/-- The top-level table of a task. -/
def taskRoot (t : Task) : Option ℕ := if t.cr3 = 0 then none else some (t.cr3 / frameSize)

/-- The frame a task has on record for a model page. -/
def taskHeld (t : Task) (pg : ℕ) : Option ℕ :=
  if modelPageResident t pg then some (modelFrame t pg / frameSize) else none

/-- The top-level tables. -/
def rootOf (k : Kernel) (i : ℕ) : Option ℕ := taskRoot (k.tasks i)

/-- The recorded model frames. -/
def heldOf (k : Kernel) (i : ℕ) : ℕ → Option ℕ := taskHeld (k.tasks i)

/-- Model arrays that cover a window, with their recorded size. -/
structure HasArrays (win : ℕ) (frames : Option (List ℕ)) (map : Option (List (BitVec 32)))
    (size : ℕ) : Prop where
  frames : ∃ l, frames = some l ∧ l.length = win
  map : ∃ l, map = some l ∧ win ≤ bitLen l
  size : size = win

/-- What holds of each task. -/
structure TaskOk (win : ℕ) (t : Task) : Prop where
  aligned : t.cr3 / frameSize * frameSize = t.cr3
  live : t.Live → t.cr3 ≠ 0
  heap : t.heapPages ≤ 512
  arrays : (t.modelFrames = none ∧ t.modelMap = none) ∨
    (HasArrays win t.modelFrames t.modelMap t.modelFramesN ∧ t.cr3 ≠ 0)
  resident : ∀ pg, modelPageResident t pg = true → pg < win
  swapped : ∀ e ∈ t.swapMap, userImageBase / 4096 ≤ e.vkey ∧ e.vkey < userModelBase / 4096

/-- The invariant. -/
structure KernelInv (k : Kernel) : Prop where
  mem : MemInv k.machine (rootOf k) (heldOf k) none
  tasks : ∀ i, TaskOk k.winPages (k.tasks i)
  window : k.winPages ≤ modelPages

theorem taskRoot_of_ne {t : Task} (h : t.cr3 ≠ 0) : taskRoot t = some (t.cr3 / frameSize) :=
  if_neg h

theorem taskHeld_of_no_map {t : Task} (h : t.modelMap = none) : taskHeld t = fun _ ↦ none := by
  funext pg
  rw [taskHeld, modelPageResident, h]
  rfl

theorem isUserVa_of_low {va : ℕ} (hlo : userImageBase ≤ va) (hhi : va < userModelBase) :
    IsUserVa va :=
  IsUserVa.of_region hlo (by rw [userModelBase] at hhi; omega)

namespace KernelInv

variable {k k' : Kernel}

/-- Only the machine changed. -/
theorem of_machine (h : KernelInv k) (hwin : k'.winPages = k.winPages)
    (htasks : k'.tasks = k.tasks) (hmem : MemInv k'.machine (rootOf k) (heldOf k) none) :
    KernelInv k' := by
  refine ⟨?_, fun i ↦ ?_, hwin ▸ h.window⟩
  · have hroot : rootOf k' = rootOf k := by
      funext i
      rw [rootOf, rootOf, htasks]
    have hheld : heldOf k' = heldOf k := by
      funext i
      rw [heldOf, heldOf, htasks]
    rw [hroot, hheld]
    exact hmem
  · rw [hwin, htasks]
    exact h.tasks i

/-- The machine and one task changed. -/
theorem of_task (h : KernelInv k) (hwin : k'.winPages = k.winPages) {i : ℕ} {t : Task}
    (htasks : k'.tasks = Function.update k.tasks i t) (hok : TaskOk k.winPages t)
    (hmem : MemInv k'.machine (Function.update (rootOf k) i (taskRoot t))
      (Function.update (heldOf k) i (taskHeld t)) none) : KernelInv k' := by
  refine ⟨?_, fun j ↦ ?_, hwin ▸ h.window⟩
  · have hroot : rootOf k' = Function.update (rootOf k) i (taskRoot t) := by
      funext j
      rw [rootOf, htasks]
      by_cases hj : j = i
      · rw [hj, Function.update_self, Function.update_self]
      · rw [Function.update_of_ne hj, Function.update_of_ne hj, rootOf]
    have hheld : heldOf k' = Function.update (heldOf k) i (taskHeld t) := by
      funext j
      rw [heldOf, htasks]
      by_cases hj : j = i
      · rw [hj, Function.update_self, Function.update_self]
      · rw [Function.update_of_ne hj, Function.update_of_ne hj, heldOf]
    rw [hroot, hheld]
    exact hmem
  · rw [hwin, htasks]
    by_cases hj : j = i
    · rw [hj, Function.update_self]
      exact hok
    · rw [Function.update_of_ne hj]
      exact h.tasks j

/-- The machine and fields of a task changed that are neither its address space nor its model
records. -/
theorem of_fields (h : KernelInv k) (hwin : k'.winPages = k.winPages) {i : ℕ} {t : Task}
    (htasks : k'.tasks = Function.update k.tasks i t) (hok : TaskOk k.winPages t)
    (hroot : taskRoot t = taskRoot (k.tasks i)) (hheld : taskHeld t = taskHeld (k.tasks i))
    (hmem : MemInv k'.machine (rootOf k) (heldOf k) none) : KernelInv k' := by
  refine h.of_task hwin htasks hok ?_
  rw [hroot, hheld, show taskRoot (k.tasks i) = rootOf k i from rfl,
    show taskHeld (k.tasks i) = heldOf k i from rfl, Function.update_eq_self,
    Function.update_eq_self]
  exact hmem

/-- The top-level table of a task with an address space. -/
theorem root_eq (i : ℕ) (hcr3 : (k.tasks i).cr3 ≠ 0) :
    rootOf k i = some ((k.tasks i).cr3 / frameSize) :=
  taskRoot_of_ne hcr3

/-! ### Swap -/

/-- The leaf of an address in the task's own tables. -/
theorem leafOf_task (h : KernelInv k) {i : ℕ} (hcr3 : (k.tasks i).cr3 ≠ 0) (va : ℕ) :
    leafOf k.machine.mem (k.tasks i).cr3 va =
      link pteFrame k.machine.mem (rootOf k i) (pathOf va) := by
  rw [root_eq i hcr3, ← leafOf_eq, (h.tasks i).aligned]

theorem swapOut (h : KernelInv k) {i va : ℕ}
    (hva : SwapRefused k i va ∨ (userImageBase ≤ va ∧ va < userModelBase)) :
    KernelInv (Mm.swapOut k i va).2 := by
  by_cases hrefused : SwapRefused k i va
  · rw [swapOut_of_refused hrefused]
    exact h
  · obtain ⟨hlo, hhi⟩ := hva.resolve_left hrefused
    obtain ⟨slot, -, heq⟩ := swapOut_of_not_refused hrefused
    simp only [SwapRefused, not_or] at hrefused
    obtain ⟨⟨-, -, hcr3⟩, -, -, hmapped, -⟩ := hrefused
    have hok := h.tasks i
    have hleaf := h.leafOf_task hcr3 va
    rw [heq]
    refine h.of_fields rfl rfl ⟨hok.aligned, hok.live, hok.heap, hok.arrays, hok.resident, ?_⟩
      rfl rfl ?_
    · intro e he
      rcases List.mem_append.mp he with hold | hnew
      · exact hok.swapped e hold
      · rw [List.mem_singleton.mp hnew]
        rw [userImageBase] at hlo
        rw [userModelBase] at hhi
        rw [userImageBase, userModelBase]
        simp only
        omega
    · rw [vmmTranslate_eq] at hmapped ⊢
      rcases hsome : leafOf k.machine.mem (k.tasks i).cr3 va with - | w
      · rw [hsome] at hmapped
        exact absurd rfl hmapped
      · rw [Option.map_some, Option.getD_some]
        rw [hsome] at hleaf
        obtain ⟨f, v, -, -, hv⟩ := link_eq_some.mp hleaf.symm
        have hframe : pteFrame w = some (pteAddr w / frameSize) := by
          rw [pteFrame] at hv ⊢
          split_ifs at hv ⊢ with hpresent
          rfl
        have hmem := h.mem.unmapFree (root_eq i hcr3) (isUserVa_of_low hlo hhi) hhi hleaf.symm
          hframe
        rwa [pteAddr_div_mul, hok.aligned] at hmem

theorem mem_of_mem_removeEnt {entries : List SwapEnt} {j : ℕ} {e : SwapEnt}
    (he : e ∈ removeEnt entries j) : e ∈ entries := by
  rw [removeEnt] at he
  rcases hlast : entries.getLast? with - | last
  · simpa only [hlast] using he
  · simp only [hlast] at he
    rcases List.mem_or_eq_of_mem_set ((List.dropLast_sublist _).subset he) with hold | rfl
    · exact hold
    · exact List.mem_of_getLast? hlast

theorem swapIn (h : KernelInv k) (i va : ℕ) :
    KernelInv (Mm.swapIn k i va).2 ∧
      ((Mm.swapIn k i va).2.tasks i).cr3 = (k.tasks i).cr3 ∧
      (Mm.swapIn k i va).2.winPages = k.winPages := by
  rw [Mm.swapIn]
  split_ifs with hoff
  · exact ⟨h, rfl, rfl⟩
  simp only [not_or] at hoff
  obtain ⟨-, -, hcr3⟩ := hoff
  rcases hfind : entFind (k.tasks i) va with - | j
  · exact ⟨h, rfl, rfl⟩
  have hok := h.tasks i
  -- the entry found has the page of the address, which lies below the window
  have hrange : userImageBase ≤ va ∧ va < userModelBase := by
    obtain ⟨hj, hkey, -⟩ := List.findIdx?_eq_some_iff_getElem.mp hfind
    have hent := hok.swapped _ (List.getElem_mem hj)
    rw [beq_iff_eq] at hkey
    rw [hkey, userImageBase, userModelBase] at hent
    rw [userImageBase, userModelBase]
    omega
  simp only
  have hspec := h.mem.mapFresh (root_eq i hcr3) (isUserVa_of_low hrange.1 hrange.2) hrange.2
    (some (k.swap.store (((k.tasks i).swapMap[j]?).map SwapEnt.slot |>.getD 0)))
    (vmmUser ||| vmmWrite)
  rw [hok.aligned] at hspec
  rcases hspec with hfail | ⟨f, m', heq, hmem, -⟩
  · rw [hfail]
    exact ⟨h.of_machine rfl rfl h.mem, rfl, rfl⟩
  · rw [heq]
    refine ⟨h.of_fields rfl rfl ⟨hok.aligned, hok.live, hok.heap, hok.arrays, hok.resident,
      fun e he ↦ hok.swapped e (mem_of_mem_removeEnt he)⟩ rfl rfl hmem, ?_, rfl⟩
    simp only [Function.update_self]

theorem swapPrefetch (h : KernelInv k) (i : ℕ) : KernelInv (Mm.swapPrefetch k i) := by
  simp only [Mm.swapPrefetch]
  split_ifs
  all_goals first | exact h | exact (h.swapIn i _).1

theorem swapExitTask (h : KernelInv k) (i : ℕ) : KernelInv (Mm.swapExitTask k i) := by
  rw [Mm.swapExitTask]
  split_ifs
  · exact h
  · have hok := h.tasks i
    exact h.of_fields rfl rfl ⟨hok.aligned, hok.live, hok.heap, hok.arrays, hok.resident,
      fun e he ↦ absurd he List.not_mem_nil⟩ rfl rfl h.mem

/-- A callback on the tasks, one after the other. -/
theorem schedForeachUser (h : KernelInv k) {cb : Kernel → ℕ → Kernel}
    (hcb : ∀ k i, KernelInv k → KernelInv (cb k i)) : KernelInv (Mm.schedForeachUser cb k) := by
  rw [Mm.schedForeachUser]
  refine List.foldlRecOn (List.range taskMax) _ h fun k hk i _ ↦ ?_
  split_ifs
  · exact hcb k i hk
  · exact hk

theorem reclaimPages (h : KernelInv k) (low i : ℕ) (vas : List ℕ)
    (hvas : ∀ va ∈ vas, userImageBase ≤ va ∧ va < userModelBase) :
    KernelInv (Mm.reclaimPages low i k vas) := by
  induction vas generalizing k with
  | nil => exact h
  | cons va rest ih =>
    have hout := h.swapOut (i := i) (Or.inr (hvas va (List.mem_cons_self ..)))
    have hrest : ∀ va ∈ rest, userImageBase ≤ va ∧ va < userModelBase :=
      fun va hva ↦ hvas va (List.mem_cons_of_mem _ hva)
    rw [Mm.reclaimPages]
    simp only
    split_ifs
    · exact hout.of_machine rfl rfl hout.mem
    · exact ih (hout.of_machine rfl rfl hout.mem) hrest
    · exact ih hout hrest

theorem mem_pagesFrom {base count va : ℕ} (h : va ∈ pagesFrom base count) :
    base ≤ va ∧ va < base + count * 4096 := by
  rw [pagesFrom, List.mem_map] at h
  obtain ⟨j, hj, rfl⟩ := h
  rw [List.mem_range] at hj
  omega

/-- The pages `reclaim_task` tries lie below the window. -/
theorem reclaim_low (h : KernelInv k) {i va : ℕ} (hva : va ∈ pagesFrom userScriptBase 8 ++
    pagesFrom userStackBase 16 ++ pagesFrom userHeapBase (k.tasks i).heapPages) :
    userImageBase ≤ va ∧ va < userModelBase := by
  have hheap := (h.tasks i).heap
  simp only [List.mem_append] at hva
  rcases hva with (hva | hva) | hva
  all_goals
    have hrange := mem_pagesFrom hva
    simp only [userScriptBase, userStackBase, userHeapBase] at hrange
    rw [userImageBase, userModelBase]
    omega

theorem reclaimTask (k : Kernel) (i : ℕ) (h : KernelInv k) : KernelInv (Mm.reclaimTask k i) := by
  simp only [Mm.reclaimTask]
  split_ifs
  · exact h
  · exact h
  · exact h.reclaimPages _ _ _ fun va hva ↦ h.reclaim_low hva

theorem swapReclaim (h : KernelInv k) : KernelInv (Mm.swapReclaim k) := by
  rw [Mm.swapReclaim]
  split_ifs
  · exact h
  · exact h
  · exact h.schedForeachUser reclaimTask

/-! ### The model window -/

theorem not_resident_of_empty {t : Task} {words : ℕ}
    (h : t.modelMap = some (List.replicate words 0)) (pg : ℕ) :
    modelPageResident t pg = false := by
  rw [modelPageResident, h]
  exact bitGet_replicate_zero words pg

theorem modelEnsureTask (h : KernelInv k) {i : ℕ} (hcr3 : (k.tasks i).cr3 ≠ 0) (need : HeapNeed) :
    KernelInv (Mm.modelEnsureTask k i k.winPages need).2 ∧
      (Mm.modelEnsureTask k i k.winPages need).2.winPages = k.winPages ∧
      ((Mm.modelEnsureTask k i k.winPages need).2.tasks i).cr3 = (k.tasks i).cr3 ∧
      ((Mm.modelEnsureTask k i k.winPages need).1 = true →
        HasArrays k.winPages ((Mm.modelEnsureTask k i k.winPages need).2.tasks i).modelFrames
          ((Mm.modelEnsureTask k i k.winPages need).2.tasks i).modelMap
          ((Mm.modelEnsureTask k i k.winPages need).2.tasks i).modelFramesN) := by
  have hok := h.tasks i
  have hmem := (h.mem.kmalloc need.frames).kmalloc need.map
  simp only [Mm.modelEnsureTask]
  rcases hok.arrays with ⟨hframes, hmap⟩ | ⟨harrays, -⟩
  · rw [if_neg (by simp [hframes])]
    split_ifs with hfail
    · exact ⟨h.of_machine rfl rfl hmem, rfl, rfl, fun hok ↦ by cases hok⟩
    · have hnew : HasArrays k.winPages (some (List.replicate k.winPages 0))
          (some (List.replicate (modelBitmapWords k.winPages) (0 : BitVec 32))) k.winPages := by
        refine ⟨⟨_, rfl, List.length_replicate⟩, ⟨_, rfl, ?_⟩, rfl⟩
        rw [bitLen, List.length_replicate, modelBitmapWords]
        omega
      refine ⟨h.of_fields rfl rfl ⟨hok.aligned, hok.live, hok.heap, Or.inr ⟨hnew, hcr3⟩,
        fun pg hpg ↦ ?_, hok.swapped⟩ rfl ?_ hmem, rfl, ?_, fun _ ↦ ?_⟩
      · rw [not_resident_of_empty rfl pg] at hpg
        exact Bool.noConfusion hpg
      · rw [taskHeld_of_no_map hmap]
        funext pg
        rw [taskHeld, not_resident_of_empty rfl pg]
        rfl
      · simp only [Kernel.setTask, Function.update_self]
      · simp only [Kernel.setTask, Function.update_self]
        exact hnew
  · obtain ⟨frames, hframes, -⟩ := harrays.frames
    obtain ⟨map, hmap, -⟩ := harrays.map
    rw [if_pos (by simp [hframes, hmap, harrays.size])]
    exact ⟨h, rfl, rfl, fun _ ↦ harrays⟩

theorem taskHeld_set {win : ℕ} {t t' : Task}
    (harrays : HasArrays win t.modelFrames t.modelMap t.modelFramesN) {pg : ℕ} (hpg : pg < win)
    (frame : ℕ) (resident : Bool)
    (ht' : t'.modelFrames = (modelPageSet (setModelFrame t pg frame) pg resident).modelFrames)
    (ht'' : t'.modelMap = (modelPageSet (setModelFrame t pg frame) pg resident).modelMap) :
    taskHeld t' = Function.update (taskHeld t) pg
      (if resident then some (frame / frameSize) else none) := by
  obtain ⟨frames, hframes, hlen⟩ := harrays.frames
  obtain ⟨map, hmap, hbits⟩ := harrays.map
  have hlt : pg < bitLen map := hpg.trans_le hbits
  have hbit : ∀ pg', modelPageResident t' pg' =
      if pg' = pg then resident else modelPageResident t pg' := by
    intro pg'
    rw [modelPageResident, ht'', modelPageResident, hmap, modelPageSet, setModelFrame, hmap]
    simp only [Option.map_some]
    cases resident
    · simp only [Bool.false_eq_true, if_false, bitGet_bitClr hlt]
      by_cases hsame : pg' = pg <;> simp [hsame]
    · simp only [if_true, bitGet_bitSet hlt]
      by_cases hsame : pg' = pg <;> simp [hsame]
  have hframe : ∀ pg', modelFrame t' pg' = if pg' = pg then frame else modelFrame t pg' := by
    intro pg'
    rw [modelFrame, ht', modelFrame, hframes, modelPageSet, setModelFrame, hframes]
    simp only [Option.map_some, Option.getD_some, List.getD_eq_getElem?_getD]
    by_cases hsame : pg' = pg
    · rw [if_pos hsame, hsame, List.getElem?_set_self (by omega), Option.getD_some]
    · rw [if_neg hsame, List.getElem?_set_ne (Ne.symm hsame)]
  funext pg'
  rw [taskHeld, hbit, hframe]
  by_cases hsame : pg' = pg
  · rw [hsame, Function.update_self, if_pos rfl, if_pos rfl]
  · rw [Function.update_of_ne hsame, if_neg hsame, if_neg hsame, taskHeld]

/-- The arrays keep their sizes. -/
theorem hasArrays_set {win : ℕ} {t t' : Task}
    (harrays : HasArrays win t.modelFrames t.modelMap t.modelFramesN) {pg frame : ℕ}
    {resident : Bool}
    (ht' : t'.modelFrames = (modelPageSet (setModelFrame t pg frame) pg resident).modelFrames)
    (ht'' : t'.modelMap = (modelPageSet (setModelFrame t pg frame) pg resident).modelMap)
    (hn : t'.modelFramesN = t.modelFramesN) :
    HasArrays win t'.modelFrames t'.modelMap t'.modelFramesN := by
  obtain ⟨frames, hframes, hlen⟩ := harrays.frames
  obtain ⟨map, hmap, hbits⟩ := harrays.map
  refine ⟨⟨frames.set pg frame, ?_, by rw [List.length_set, hlen]⟩,
    ⟨if resident then bitSet map pg else bitClr map pg, ?_, ?_⟩, hn.trans harrays.size⟩
  · rw [ht', modelPageSet, setModelFrame, hframes]
    rfl
  · rw [ht'', modelPageSet, setModelFrame, hmap]
    rfl
  · cases resident
    · rw [if_neg (by decide), bitLen, length_bitClr]
      exact hbits
    · rw [if_pos rfl, bitLen, length_bitSet]
      exact hbits

theorem resident_iff_held {t : Task} {pg : ℕ} :
    modelPageResident t pg = true ↔ taskHeld t pg ≠ none := by
  rw [taskHeld]
  split_ifs with hres
  · exact iff_of_true hres nofun
  · exact iff_of_false hres fun hne ↦ hne rfl

/-- A change of one model record, with what the machine did for it. -/
theorem of_record (h : KernelInv k) (hwin : k'.winPages = k.winPages) {i pg : ℕ} (frame : ℕ)
    (resident : Bool) {t : Task} (hpg : pg < k.winPages)
    (harrays : HasArrays k.winPages (k.tasks i).modelFrames (k.tasks i).modelMap
      (k.tasks i).modelFramesN) (hcr3 : (k.tasks i).cr3 ≠ 0)
    (ht : t = { modelPageSet (setModelFrame (k.tasks i) pg frame) pg resident with
      modelWeightsKb := t.modelWeightsKb })
    (htasks : k'.tasks = Function.update k.tasks i t)
    (hmem : MemInv k'.machine (rootOf k) (MemInv.setHeld (heldOf k) i pg
      (if resident then some (frame / frameSize) else none)) none) : KernelInv k' := by
  have hok := h.tasks i
  have hfr : t.modelFrames =
      (modelPageSet (setModelFrame (k.tasks i) pg frame) pg resident).modelFrames := by rw [ht]
  have hmp : t.modelMap =
      (modelPageSet (setModelFrame (k.tasks i) pg frame) pg resident).modelMap := by rw [ht]
  have hn : t.modelFramesN = (k.tasks i).modelFramesN := by
    rw [ht]
    rfl
  have hc : t.cr3 = (k.tasks i).cr3 := by
    rw [ht]
    rfl
  have hheld := taskHeld_set harrays hpg frame resident hfr hmp
  have hlive : t.Live → (k.tasks i).Live := by
    rw [ht]
    exact id
  have hheap : t.heapPages = (k.tasks i).heapPages := by
    rw [ht]
    rfl
  have hswap : t.swapMap = (k.tasks i).swapMap := by
    rw [ht]
    rfl
  refine h.of_task hwin htasks ⟨by rw [hc]; exact hok.aligned, fun hl ↦ hc ▸ hok.live (hlive hl),
    hheap ▸ hok.heap, Or.inr ⟨hasArrays_set harrays hfr hmp hn, hc ▸ hcr3⟩, fun pg' hres ↦ ?_,
    fun e he ↦ hok.swapped e (hswap ▸ he)⟩ ?_
  · by_cases hsame : pg' = pg
    · rw [hsame]
      exact hpg
    · refine hok.resident pg' (resident_iff_held.mpr ?_)
      have hne := resident_iff_held.mp hres
      rwa [hheld, Function.update_of_ne hsame] at hne
  · rw [hheld, taskRoot, hc, show (if (k.tasks i).cr3 = 0 then none else
      some ((k.tasks i).cr3 / frameSize)) = rootOf k i from rfl, Function.update_eq_self]
    exact hmem

theorem modelFaultInPage (h : KernelInv k) {i pg : ℕ} (hcr3 : (k.tasks i).cr3 ≠ 0)
    (harrays : HasArrays k.winPages (k.tasks i).modelFrames (k.tasks i).modelMap
      (k.tasks i).modelFramesN)
    (hpg : pg < k.winPages) (hres : modelPageResident (k.tasks i) pg = false) :
    KernelInv (Mm.modelFaultInPage k i pg).2 ∧
      ((Mm.modelFaultInPage k i pg).2.tasks i).cr3 = (k.tasks i).cr3 ∧
      (Mm.modelFaultInPage k i pg).2.winPages = k.winPages := by
  have hnone : heldOf k i pg = none := by
    rw [heldOf, taskHeld, hres]
    rfl
  have hspec := h.mem.faultIn (root_eq i hcr3) (hpg.trans_le h.window) hnone
    (some (k.weights pg))
  rw [(h.tasks i).aligned] at hspec
  simp only [Mm.modelFaultInPage]
  rcases hspec with hfail | ⟨f, m', heq, hmem⟩
  · rw [hfail]
    exact ⟨h.of_machine rfl rfl h.mem, rfl, rfl⟩
  · rw [heq]
    refine ⟨h.of_record rfl (f * frameSize) true hpg harrays hcr3 rfl rfl ?_, ?_, rfl⟩
    · rw [if_pos rfl, Nat.mul_div_cancel _ (by decide : 0 < frameSize)]
      exact hmem
    · simp only [Kernel.setTask, Function.update_self]
      rfl

theorem modelLoadPage (h : KernelInv k) {i pg : ℕ} (hcr3 : (k.tasks i).cr3 ≠ 0)
    (hpg : pg < k.winPages) (need : HeapNeed) :
    KernelInv (Mm.modelLoadPage k i pg need).2 ∧
      ((Mm.modelLoadPage k i pg need).2.tasks i).cr3 = (k.tasks i).cr3 ∧
      (Mm.modelLoadPage k i pg need).2.winPages = k.winPages := by
  obtain ⟨hinv, hwin, hsame, harrays⟩ := h.modelEnsureTask hcr3 need
  rw [Mm.modelLoadPage]
  rcases hensure : Mm.modelEnsureTask k i k.winPages need with ⟨ok, k₁⟩
  rw [hensure] at hinv hwin hsame harrays
  simp only at hinv hwin hsame harrays ⊢
  split_ifs with hfail hres hbudget hload
  · exact ⟨hinv, hsame, hwin⟩
  · exact ⟨hinv, hsame, hwin⟩
  · exact ⟨hinv, hsame, hwin⟩
  all_goals
    rw [Bool.not_eq_false] at hfail
    rw [Bool.not_eq_true] at hres
    rw [← hwin, ← hsame]
    exact hinv.modelFaultInPage (hsame ▸ hcr3) (hwin ▸ harrays hfail) (hwin ▸ hpg) hres

theorem modelDemandFault (h : KernelInv k) {i : ℕ} (hcr3 : (k.tasks i).cr3 ≠ 0) (cr2 err : ℕ)
    (need : HeapNeed) :
    KernelInv (Mm.modelDemandFault k i cr2 err need).2 ∧
      ((Mm.modelDemandFault k i cr2 err need).2.tasks i).cr3 = (k.tasks i).cr3 := by
  simp only [Mm.modelDemandFault]
  split_ifs with hrange hpresent hpg
  · exact ⟨h, rfl⟩
  · exact ⟨h, rfl⟩
  · exact ⟨h, rfl⟩
  · obtain ⟨hinv, hsame, -⟩ := h.modelLoadPage hcr3 (not_le.mp hpg) need
    rcases hload : Mm.modelLoadPage k i ((cr2 - userModelBase) / 4096) need with ⟨res, k₁⟩
    rw [hload] at hinv hsame
    cases res with
    | resident => exact ⟨hinv, hsame⟩
    | denied => exact ⟨hinv, hsame⟩
    | loaded =>
      have hok := hinv.tasks i
      refine ⟨hinv.of_fields rfl rfl ⟨hok.aligned, hok.live, hok.heap, hok.arrays, hok.resident,
        hok.swapped⟩ rfl rfl hinv.mem, ?_⟩
      simp only [Kernel.setTask, Function.update_self]
      exact hsame

theorem modelPrefetch (h : KernelInv k) {i : ℕ} (hcr3 : (k.tasks i).cr3 ≠ 0) (need : HeapNeed) :
    KernelInv (Mm.modelPrefetch k i need) := by
  simp only [Mm.modelPrefetch]
  split_ifs with hnone hrange hpg
  · exact h
  · exact h
  · exact h
  · exact (h.modelLoadPage hcr3 (not_le.mp hpg) need).1

/-- A resident page belongs to a task with arrays and an address space. -/
theorem arrays_of_resident (h : KernelInv k) {i pg : ℕ}
    (hres : modelPageResident (k.tasks i) pg = true) :
    HasArrays k.winPages (k.tasks i).modelFrames (k.tasks i).modelMap (k.tasks i).modelFramesN ∧
      (k.tasks i).cr3 ≠ 0 := by
  rcases (h.tasks i).arrays with ⟨-, hmap⟩ | harrays
  · rw [modelPageResident, hmap] at hres
    exact Bool.noConfusion hres
  · exact harrays

theorem modelDropPage (h : KernelInv k) {i pg : ℕ}
    (hres : modelPageResident (k.tasks i) pg = true) : KernelInv (Mm.modelDropPage k i pg) := by
  obtain ⟨harrays, hcr3⟩ := h.arrays_of_resident hres
  have hheld : heldOf k i pg = some (modelFrame (k.tasks i) pg / frameSize) := by
    rw [heldOf, taskHeld, if_pos hres]
  have hmem := h.mem.dropPage (root_eq i hcr3) hheld
  rw [(h.tasks i).aligned, pmmFreeFrame_div_mul,
    ← vmmUnmap_pmm k.machine (k.tasks i).cr3 (modelVa pg)] at hmem
  refine h.of_record rfl 0 false ((h.tasks i).resident pg hres) harrays hcr3 rfl rfl ?_
  rw [if_neg Bool.false_ne_true]
  exact hmem

theorem modelEvictPage (h : KernelInv k) (i pg : ℕ) : KernelInv (Mm.modelEvictPage k i pg).2 := by
  rw [Mm.modelEvictPage]
  split_ifs with hpg hres
  · exact h
  · exact h
  · simp only [Bool.or_eq_true, not_or, Bool.not_eq_true, Bool.not_eq_false'] at hres
    exact h.modelDropPage hres.2

theorem modelInvalidateTask (k : Kernel) (i : ℕ) (h : KernelInv k) :
    KernelInv (Mm.modelInvalidateTask k i) := by
  rw [Mm.modelInvalidateTask]
  split_ifs with hnone
  · exact h
  · refine List.foldlRecOn (List.range _) _ h fun k hk pg _ ↦ ?_
    split_ifs with hres
    · exact hk.modelDropPage hres
    · exact hk

theorem modelInvalidateAll (h : KernelInv k) : KernelInv (Mm.modelInvalidateAll k) :=
  h.schedForeachUser modelInvalidateTask

end KernelInv

end NoOsKernel.Mm
