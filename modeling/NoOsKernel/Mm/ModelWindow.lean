import NoOsKernel.Mm.Task

/-!
# The model window

`kernel/mm/model.c`: the weights of the transformer, mapped read-only on demand. A task keeps the
frame of each resident page and a bitmap of the resident pages, in arrays allocated on its first
fault.
-/

set_option autoImplicit false
set_option relaxedAutoImplicit false

namespace NoOsKernel.Mm

open Lib

/-- The frames the kernel heap lacks for the two arrays of `model_ensure_task`. -/
structure HeapNeed where
  frames : ℕ
  map : ℕ

/-- `model_in_range`. -/
def modelInRange (k : Kernel) (addr : ℕ) : Bool :=
  userModelBase ≤ addr && addr - userModelBase < k.winPages * 4096

/-- `MODEL_BITMAP_WORDS`. -/
def modelBitmapWords (n : ℕ) : ℕ := (n + 31) / 32

/-- `model_ensure_task`. -/
def modelEnsureTask (k : Kernel) (i pages : ℕ) (need : HeapNeed) : Bool × Kernel :=
  let t := k.tasks i
  if pages ≤ t.modelFramesN && t.modelFrames.isSome && t.modelMap.isSome then (true, k)
  else
    let frames := kmalloc k.machine.pmm need.frames
    let map := kmalloc frames.2 need.map
    let k' : Kernel := { k with machine := { k.machine with pmm := map.2 } }
    if frames.1 = false ∨ map.1 = false then (false, k')
    else
      (true, k'.setTask i { t with
        modelFrames := some (List.replicate pages 0)
        modelMap := some (List.replicate (modelBitmapWords pages) 0)
        modelFramesN := pages })

/-- `model_exit_task`. -/
def modelExitTask (k : Kernel) (i : ℕ) : Kernel :=
  k.setTask i { k.tasks i with modelFrames := none, modelMap := none, modelFramesN := 0 }

/-- `model_page_resident`. -/
def modelPageResident (t : Task) (pg : ℕ) : Bool :=
  match t.modelMap with
  | none => false
  | some map => bitGet map pg

/-- `model_page_set`. -/
def modelPageSet (t : Task) (pg : ℕ) (resident : Bool) : Task :=
  { t with modelMap := t.modelMap.map fun map ↦
      if resident then bitSet map pg else bitClr map pg }

/-- `t->model_frames[pg]`. -/
def modelFrame (t : Task) (pg : ℕ) : ℕ := (t.modelFrames.getD []).getD pg 0

/-- Store into `t->model_frames`. -/
def setModelFrame (t : Task) (pg frame : ℕ) : Task :=
  { t with modelFrames := t.modelFrames.map fun frames ↦ frames.set pg frame }

/-- The address of a model page. -/
def modelVa (pg : ℕ) : ℕ := userModelBase + pg * 4096

/-- `model_fault_in_page`. -/
def modelFaultInPage (k : Kernel) (i pg : ℕ) : Bool × Kernel :=
  let t := k.tasks i
  match mapFresh k.machine t.cr3 (modelVa pg) (some (k.weights pg)) vmmUser with
  | .error m => (false, { k with machine := m })
  | .ok (frame, m) =>
    let t' := modelPageSet (setModelFrame t pg frame) pg true
    (true, Kernel.setTask { k with machine := m } i
      { t' with modelWeightsKb := (t'.modelWeightsKb + 4) % 2 ^ 32 })

/-- The common part of `model_demand_fault` and `model_prefetch` for a page of the window: the page
is resident already, or the budget and the allocator let it in. -/
inductive FaultIn where
  | resident
  | denied
  | loaded

/-- Bring a page of the window in. -/
def modelLoadPage (k : Kernel) (i pg : ℕ) (need : HeapNeed) : FaultIn × Kernel :=
  let r := modelEnsureTask k i k.winPages need
  let t := r.2.tasks i
  if r.1 = false then (.denied, r.2)
  else if modelPageResident t pg then (.resident, r.2)
  else if t.modelBudgetKb < t.modelWeightsKb + 4 then (.denied, r.2)
  else
    let r' := modelFaultInPage r.2 i pg
    if r'.1 then (.loaded, r'.2) else (.denied, r'.2)

/-- `model_demand_fault`. -/
def modelDemandFault (k : Kernel) (i cr2 err : ℕ) (need : HeapNeed) : Bool × Kernel :=
  if modelInRange k cr2 = false then (false, k)
  else if err % 2 = 1 then (false, k)
  else
    let pg := (cr2 - userModelBase) / 4096
    if k.winPages ≤ pg then (false, k)
    else
      match modelLoadPage k i pg need with
      | (.denied, k') => (false, k')
      | (.resident, k') => (true, k')
      | (.loaded, k') =>
        let t := k'.tasks i
        (true, k'.setTask i { t with modelFaults := (t.modelFaults + 1) % 2 ^ 32 })

/-- `model_prefetch`. -/
def modelPrefetch (k : Kernel) (i : ℕ) (need : HeapNeed) : Kernel :=
  let p := pgpredPredict k.pgpred
  if p = 0 then k
  else
    let va := p * 2 ^ 12 % 2 ^ 64
    if modelInRange k va = false then k
    else
      let pg := (va - userModelBase) / 4096
      if k.winPages ≤ pg then k else (modelLoadPage k i pg need).2

/-- What `model_evict_page` and `model_invalidate_task` do to a resident page. -/
def modelDropPage (k : Kernel) (i pg : ℕ) : Kernel :=
  let t := k.tasks i
  let m := vmmUnmap k.machine t.cr3 (modelVa pg)
  let t' := modelPageSet (setModelFrame t pg 0) pg false
  Kernel.setTask { k with machine := { m with pmm := pmmFreeFrame m.pmm (modelFrame t pg) } } i
    { t' with modelWeightsKb := (t'.modelWeightsKb + 2 ^ 32 - 4) % 2 ^ 32 }

/-- `model_evict_page`. -/
def modelEvictPage (k : Kernel) (i pg : ℕ) : Bool × Kernel :=
  let t := k.tasks i
  if k.winPages ≤ pg then (false, k)
  else if t.modelMap.isNone || !modelPageResident t pg then (false, k)
  else (true, modelDropPage k i pg)

/-- `model_invalidate_task`. -/
def modelInvalidateTask (k : Kernel) (i : ℕ) : Kernel :=
  let t := k.tasks i
  if t.modelFrames.isNone || t.modelMap.isNone then k
  else
    (List.range t.modelFramesN).foldl (fun k pg ↦
      if modelPageResident (k.tasks i) pg then modelDropPage k i pg else k) k

/-- `model_invalidate_all`. -/
def modelInvalidateAll (k : Kernel) : Kernel := schedForeachUser modelInvalidateTask k

end NoOsKernel.Mm
