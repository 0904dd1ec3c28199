import NoOsKernel.Lib.Runs
import NoOsKernel.Mm.Sched

/-!
# System calls, page faults, and runs of the kernel

The memory system calls of `kernel/arch/x86_64/syscall.c`, the page-fault path of
`kernel/arch/x86_64/isr.c`, and the steps of a running system: what live tasks ask for, what the
processor reports, and what the kernel does by itself.
-/

set_option autoImplicit false
set_option relaxedAutoImplicit false

namespace NoOsKernel.Mm

open Lib

/-- The loop of `sys_alloc`: `count` more heap pages; the flag is `false` without a frame. -/
def growHeap (k : Kernel) (i : ℕ) : ℕ → Bool × Kernel
  | 0 => (true, k)
  | count + 1 =>
    let t := k.tasks i
    match mapFresh k.machine t.cr3 (userHeapBase + t.heapPages * 4096) (some fun _ ↦ 0)
        (vmmUser ||| vmmWrite) with
    | .error m => (false, { k with machine := m })
    | .ok (_, m) =>
      growHeap (Kernel.setTask { k with machine := m } i { t with heapPages := t.heapPages + 1 }) i
        count

/-- `sys_alloc`, in `u64` arithmetic. -/
def sysAlloc (k : Kernel) (i n : ℕ) : ℕ × Kernel :=
  let t := k.tasks i
  let n := (n + 15) % 2 ^ 64 / 16 * 16
  let used := (t.heapUsed + n) % 2 ^ 64
  if 0x200000 < used then (0, k)
  else
    let want := (used + 4095) / 4096
    let r := growHeap k i (want - t.heapPages)
    if r.1 = false then (0, r.2)
    else (userHeapBase + t.heapUsed, r.2.setTask i { r.2.tasks i with heapUsed := used })

/-- `SYS_MODEL_BUDGET`. -/
def sysModelBudget (k : Kernel) (i kb : ℕ) : Kernel :=
  k.setTask i { k.tasks i with modelBudgetKb := if 65536 < kb then 65536 else kb }

/-- `SYS_MODEL_COMMIT`. -/
def sysModelCommit (k : Kernel) (i pages : ℕ) : Kernel :=
  let t := k.tasks i
  let need := pages * 4 % 2 ^ 64
  if t.modelBudgetKb < (t.modelWeightsKb + need) % 2 ^ 64 then k
  else k.setTask i { t with modelWeightsKb := (t.modelWeightsKb + need % 2 ^ 32) % 2 ^ 32 }

/-- `SYS_MODEL_TOUCH`. -/
def sysModelTouch (k : Kernel) (i pg : ℕ) (need : HeapNeed) : Kernel :=
  if k.winPages ≤ pg then k else (modelDemandFault k i (modelVa pg) 0 need).2

/-- The end of the page-fault path, after swap has declined: the model window, or the end of the
task. -/
def modelOrKill (k : Kernel) (i cr2 err : ℕ) (need need' : HeapNeed) : Kernel :=
  let r := modelDemandFault k i cr2 err need
  if r.1 then modelPrefetch { r.2 with pgpred := pgpredFault r.2.pgpred cr2 } i need'
  else schedExitUser { r.2 with pgpred := pgpredFault r.2.pgpred cr2 } i

/-- `isr_dispatch` for a page fault of a user task. -/
def pageFault (k : Kernel) (i cr2 err : ℕ) (need need' : HeapNeed) : Kernel :=
  if swapHas (k.tasks i) cr2 then
    let r := swapIn k i cr2
    if r.1 = 0 then swapPrefetch { r.2 with pgpred := pgpredFault r.2.pgpred cr2 } i
    else modelOrKill r.2 i cr2 err need need'
  else modelOrKill k i cr2 err need need'

/-- The user bit of an entry. -/
def userBit (e : Word) : Bool := e.getLsbD 2

/-- A store of a user task. The processor lets it through where the entry allows it; outside the
user half nothing is accessible to user mode. -/
def userStore (k : Kernel) (i va : ℕ) (b : Byte) : Kernel :=
  match leafOf k.machine.mem (k.tasks i).cr3 va with
  | none => k
  | some e =>
    if IsUserVa va ∧ writable e = true ∧ userBit e = true then
      { k with machine := pokeByte k.machine (pteAddr e + va % 4096) b }
    else k

/-- The steps of the system. -/
inductive Op where
  | spawn (code : List Byte) (need : ℕ)
  | alloc (i n : ℕ)
  | modelBudget (i kb : ℕ)
  | modelCommit (i pages : ℕ)
  | modelTouch (i pg : ℕ) (need : HeapNeed)
  | modelEvict (i pg : ℕ)
  | swapOut (i va : ℕ)
  | fault (i cr2 err : ℕ) (need need' : HeapNeed)
  | store (i va : ℕ) (b : Byte)
  | exit (i : ℕ)
  | invalidateAll (weights : ℕ → Page)
  | reclaim
  | kernelAlloc (need : ℕ)

/-- One step. `trans_reset` replaces the weights before it calls `model_invalidate_all`. -/
def step (k : Kernel) : Op → Kernel
  | .spawn code need => (schedSpawn k code need).2
  | .alloc i n => (sysAlloc k i n).2
  | .modelBudget i kb => sysModelBudget k i kb
  | .modelCommit i pages => sysModelCommit k i pages
  | .modelTouch i pg need => sysModelTouch k i pg need
  | .modelEvict i pg => (modelEvictPage k i pg).2
  | .swapOut i va => (swapOut k i va).2
  | .fault i cr2 err need need' => pageFault k i cr2 err need need'
  | .store i va b => userStore k i va b
  | .exit i => schedExitUser k i
  | .invalidateAll weights => modelInvalidateAll { k with weights := weights }
  | .reclaim => swapReclaim k
  | .kernelAlloc need =>
    { k with machine := { k.machine with pmm := (kmalloc k.machine.pmm need).2 } }

/-- The task a step belongs to, if it is a task's. -/
def Op.task? : Op → Option ℕ
  | .alloc i _ | .modelBudget i _ | .modelCommit i _ | .modelTouch i _ _ | .modelEvict i _
  | .swapOut i _ | .fault i _ _ _ _ | .store i _ _ | .exit i => some i
  | .spawn _ _ | .invalidateAll _ | .reclaim | .kernelAlloc _ => none

/-- The task and the address of a `SYS_SWAP_OUT`. -/
def Op.swapOut? : Op → Option (ℕ × ℕ)
  | .swapOut i va => some (i, va)
  | _ => none

/-- The script of a spawn. -/
def Op.script? : Op → Option (List Byte)
  | .spawn code _ => some code
  | _ => none

/-- Steps that can happen: tasks that act are live, and swap pages of the user region out. -/
def CanHappen (k : Kernel) (op : Op) : Prop :=
  (∀ i ∈ op.task?, i < taskMax ∧ (k.tasks i).Live) ∧ ∀ a ∈ op.swapOut?, InUserRegion a.2

instance (k : Kernel) (op : Op) : Decidable (CanHappen k op) := inferInstanceAs (Decidable (_ ∧ _))

/-- The kernel after boot: the allocator is set up, no user task has been spawned, and the model
window has at most `USER_MODEL_MAX` bytes. -/
structure Booted (k : Kernel) : Prop where
  pmm : PmmOk k.machine.pmm
  tasks : ∀ i, (k.tasks i).user = false ∧ (k.tasks i).cr3 = 0 ∧ (k.tasks i).heapPages = 0 ∧
    (k.tasks i).modelFrames = none ∧ (k.tasks i).modelMap = none ∧ (k.tasks i).swapMap = []
  window : k.winPages ≤ userModelMax / 4096

end NoOsKernel.Mm
