import NoOsKernel.Mm.Pgpred
import NoOsKernel.Mm.Vmm

/-!
# Tasks and the state of the kernel

`task_t` of `kernel/include/sched.h`, without what only the context switch reads, and the globals
the memory subsystems share: the machine, the swap region, the model window and the predictor.

`swap_map` is the list of its live entries. The model arrays are `none` for `NULL`.
-/

set_option autoImplicit false
set_option relaxedAutoImplicit false

namespace NoOsKernel.Mm

open Lib

/-- `task_state_t`. -/
inductive TaskState where
  | runnable
  | running
  | blocked
  | zombie
  deriving DecidableEq

/-- `swap_ent_t`. -/
structure SwapEnt where
  vkey : ℕ
  slot : ℕ

/-- `task_t`. -/
structure Task where
  pid : ℕ
  state : TaskState
  hasKstack : Bool
  cr3 : ℕ
  user : Bool
  heapUsed : ℕ
  heapPages : ℕ
  modelBudgetKb : ℕ
  modelWeightsKb : ℕ
  modelFaults : ℕ
  modelFramesN : ℕ
  modelFrames : Option (List ℕ)
  modelMap : Option (List (BitVec 32))
  swapMap : List SwapEnt

/-- The all-zero record of `memset`, with the default model budget. -/
def Task.fresh : Task where
  pid := 0
  state := .runnable
  hasKstack := false
  cr3 := 0
  user := false
  heapUsed := 0
  heapPages := 0
  modelBudgetKb := 8192
  modelWeightsKb := 0
  modelFaults := 0
  modelFramesN := 0
  modelFrames := none
  modelMap := none
  swapMap := []

/-- `TASK_MAX`. -/
def taskMax : ℕ := 16

/-- The globals of `swap.c`: the slot bitmap, the number of slots, the pages stored in them, and the
counters. -/
structure Swap where
  active : Bool
  slots : List Byte
  pages : ℕ
  store : ℕ → Page
  swapsOut : ℕ
  swapsIn : ℕ
  reclaims : ℕ

/-- The state of the kernel. The user runtime is linked into the kernel image, which lies in the
first gigabyte. -/
structure Kernel where
  machine : Machine
  tasks : ℕ → Task
  nextPid : ℕ
  winPages : ℕ
  weights : ℕ → Page
  swap : Swap
  pgpred : PgHist
  bootPml4 : ℕ
  blob : List Page
  blob_fits : blob.length ≤ 2 ^ 18

/-- The empty image fits. -/
theorem nil_blob_fits : ([] : List Page).length ≤ 2 ^ 18 := Nat.zero_le _

/-- Update one task. -/
def Kernel.setTask (k : Kernel) (i : ℕ) (t : Task) : Kernel :=
  { k with tasks := Function.update k.tasks i t }

/-- `sched_foreach_user`. -/
def schedForeachUser (cb : Kernel → ℕ → Kernel) (k : Kernel) : Kernel :=
  (List.range taskMax).foldl (fun k i ↦
    if (k.tasks i).hasKstack && (k.tasks i).user then cb k i else k) k

/-- A live user task. -/
def Task.Live (t : Task) : Prop := t.user = true ∧ t.state ≠ .zombie

instance (t : Task) : Decidable t.Live := inferInstanceAs (Decidable (_ ∧ _))

end NoOsKernel.Mm
