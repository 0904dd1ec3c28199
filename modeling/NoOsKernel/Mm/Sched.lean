import NoOsKernel.Mm.ModelWindow
import NoOsKernel.Mm.Swap

/-!
# Spawning and ending user tasks

`sched_spawn` and `sched_exit_user` of `kernel/kern/sched.c`. The script is copied with one `memcpy`
from the first scratch frame on, as if the eight scratch frames were contiguous; the bytes go where
physical memory has them.
-/

set_option autoImplicit false
set_option relaxedAutoImplicit false

namespace NoOsKernel.Mm

open Lib

/-- Byte `j` of a word, replaced. -/
def setByte (w : Word) (j : ℕ) (b : Byte) : Word :=
  (w &&& ~~~(0xFF#64 <<< (8 * j))) ||| (b.setWidth 64 <<< (8 * j))

/-- Store one byte of physical memory. -/
def pokeByte (m : Machine) (addr : ℕ) (b : Byte) : Machine :=
  m.setWord addr (addr % frameSize / 8)
    (setByte (word m.mem addr (addr % frameSize / 8)) (addr % 8) b)

/-- Store consecutive bytes. -/
def pokeBytes : Machine → ℕ → List Byte → Machine
  | m, _, [] => m
  | m, addr, b :: rest => pokeBytes (pokeByte m addr b) (addr + 1) rest

/-- Map consecutive fresh pages, each with its contents, and give their frames. -/
def mapPages (m : Machine) (cr3 va : ℕ) : List (Option Page) → Except Machine (List ℕ × Machine)
  | [] => .ok ([], m)
  | fill :: rest =>
    match mapFresh m cr3 va fill (vmmUser ||| vmmWrite) with
    | .error m => .error m
    | .ok (frame, m) =>
      match mapPages m cr3 (va + 4096) rest with
      | .error m => .error m
      | .ok (frames, m) => .ok (frame :: frames, m)

/-- The part of `sched_spawn` that fills the address space: the runtime, the script scratch with the
script, and the stack. -/
def loadImage (m : Machine) (cr3 : ℕ) (blob : List Page) (code : List Byte) :
    Except Machine Machine :=
  match mapPages m cr3 userImageBase (blob.map some) with
  | .error m => .error m
  | .ok (_, m) =>
    match mapPages m cr3 userScriptBase (List.replicate 8 none) with
    | .error m => .error m
    | .ok (frames, m) =>
      let m := pokeBytes m (frames.headD 0) (code.take 32768 ++ [0])
      match mapPages m cr3 userStackBase (List.replicate 16 none) with
      | .error m => .error m
      | .ok (_, m) => .ok m

/-- The task slot `sched_spawn` takes. -/
def freeTask (k : Kernel) : Option ℕ :=
  (List.range' 1 (taskMax - 1)).find? fun i ↦
    (k.tasks i).state == .zombie || (k.tasks i).pid == 0

/-- `sched_spawn`, with the bytes of the script before its terminator and the frames the heap lacks
for the kernel stack: the process number, or `-1`. -/
def schedSpawn (k : Kernel) (code : List Byte) (need : ℕ) : ℤ × Kernel :=
  match freeTask k with
  | none => (-1, k)
  | some i =>
    let k := k.setTask i Task.fresh
    let space := vmmNewAddressSpace k.machine k.bootPml4
    if space.1 = 0 then (-1, { k with machine := space.2 })
    else
      let kstack := kmalloc space.2.pmm need
      let m : Machine := { space.2 with pmm := kstack.2 }
      if kstack.1 = false then (-1, { k with machine := vmmFreeAddressSpace m space.1 })
      else
        match loadImage m space.1 k.blob code with
        | .error m => (-1, { k with machine := vmmFreeAddressSpace m space.1 })
        | .ok m =>
          (k.nextPid, Kernel.setTask
            { k with machine := m, nextPid := (k.nextPid + 1) % 2 ^ 32 } i
            { Task.fresh with
              pid := k.nextPid
              hasKstack := true
              cr3 := space.1
              user := true })

/-- `sched_exit_user`. -/
def schedExitUser (k : Kernel) (i : ℕ) : Kernel :=
  let k := k.setTask i { k.tasks i with state := .zombie }
  let k := swapExitTask (modelExitTask k i) i
  let k : Kernel :=
    if (k.tasks i).cr3 = 0 then k
    else { k with machine := vmmFreeAddressSpace k.machine (k.tasks i).cr3 }
  k.setTask i { k.tasks i with cr3 := 0 }

/-! ### What they do to the task table -/

/-- A slot `sched_spawn` takes is one of a zombie, or one without a process number. -/
theorem freeTask_spec {k : Kernel} {i : ℕ} (h : freeTask k = some i) :
    i ≠ 0 ∧ ((k.tasks i).state = .zombie ∨ (k.tasks i).pid = 0) := by
  have hmem := List.mem_of_find?_eq_some h
  have hfree := List.find?_some h
  rw [List.mem_range'_1] at hmem
  simp only [Bool.or_eq_true, beq_iff_eq] at hfree
  exact ⟨by omega, hfree⟩

/-- `sched_spawn` changes one slot: it clears it, or puts a new process there. -/
theorem schedSpawn_tasks {k : Kernel} {i : ℕ} (hslot : freeTask k = some i) (code : List Byte)
    (need : ℕ) :
    (schedSpawn k code need).2.swap = k.swap ∧
    (((schedSpawn k code need).2.tasks = Function.update k.tasks i Task.fresh ∧
        (schedSpawn k code need).2.nextPid = k.nextPid) ∨
      ∃ cr3, (schedSpawn k code need).2.tasks = Function.update k.tasks i
          { Task.fresh with pid := k.nextPid, hasKstack := true, cr3 := cr3, user := true } ∧
        (schedSpawn k code need).2.nextPid = (k.nextPid + 1) % 2 ^ 32) := by
  simp only [schedSpawn, hslot]
  split_ifs
  · exact ⟨rfl, Or.inl ⟨rfl, rfl⟩⟩
  · exact ⟨rfl, Or.inl ⟨rfl, rfl⟩⟩
  · split
    · exact ⟨rfl, Or.inl ⟨rfl, rfl⟩⟩
    · refine ⟨rfl, Or.inr ⟨(vmmNewAddressSpace k.machine k.bootPml4).1, ?_, rfl⟩⟩
      exact Function.update_idem ..

theorem schedSpawn_full {k : Kernel} (hslot : freeTask k = none) (code : List Byte) (need : ℕ) :
    schedSpawn k code need = (-1, k) := by
  rw [schedSpawn, hslot]

/-- Freeing slots does not turn swap off. -/
theorem foldl_slotFree_active (slots : List ℕ) (s : Swap) :
    (slots.foldl slotFree s).active = s.active := by
  induction slots generalizing s with
  | nil => rfl
  | cons slot rest ih => exact ih (slotFree s slot)

/-- What `sched_exit_user` leaves: a zombie without address space, model arrays or, when swap is on,
swapped pages. -/
theorem schedExitUser_eq (k : Kernel) (i : ℕ) : schedExitUser k i = Kernel.setTask { k with
      machine := if (k.tasks i).cr3 = 0 then k.machine
        else vmmFreeAddressSpace k.machine (k.tasks i).cr3
      swap := (swapExitTask k i).swap } i
    { k.tasks i with
      state := .zombie
      cr3 := 0
      modelFrames := none
      modelMap := none
      modelFramesN := 0
      swapMap := if k.swap.active = false then (k.tasks i).swapMap else [] } := by
  by_cases hactive : k.swap.active = false <;> by_cases hcr3 : (k.tasks i).cr3 = 0 <;>
    simp only [schedExitUser, swapExitTask, modelExitTask, Kernel.setTask, Function.update_self,
      Function.update_idem, hactive, hcr3, Bool.true_eq_false, if_true, if_false]

end NoOsKernel.Mm
