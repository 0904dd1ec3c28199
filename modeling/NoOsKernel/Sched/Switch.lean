import NoOsKernel.Lib.Runs
import NoOsKernel.Mm.Sched

/-!
# The scheduler

`kernel/kern/sched.c` over the state of the kernel: the round-robin choice, the switches by frame
swap, the wake-ups, and the entry of the REPL.

A handler gets the register frame of what it interrupted and overwrites it; the result of a step is
the frame the processor continues with, and `none` when the coroutine of the REPL is resumed
instead, which never comes back to the handler. The two wake-up loops touch every slot once.
-/

set_option autoImplicit false
set_option relaxedAutoImplicit false

namespace NoOsKernel.Sched

open Lib Mm

/-- `struct regs`. -/
structure Regs where
  r15 : BitVec 64
  r14 : BitVec 64
  r13 : BitVec 64
  r12 : BitVec 64
  r11 : BitVec 64
  r10 : BitVec 64
  r9 : BitVec 64
  r8 : BitVec 64
  rbp : BitVec 64
  rdi : BitVec 64
  rsi : BitVec 64
  rdx : BitVec 64
  rcx : BitVec 64
  rbx : BitVec 64
  rax : BitVec 64
  vector : BitVec 64
  error : BitVec 64
  rip : BitVec 64
  cs : BitVec 64
  rflags : BitVec 64
  rsp : BitVec 64
  ss : BitVec 64
  deriving DecidableEq

/-- The cleared frame of `memset`. -/
def Regs.zero : Regs := ⟨0, 0, 0, 0, 0, 0, 0, 0, 0, 0, 0, 0, 0, 0, 0, 0, 0, 0, 0, 0, 0, 0⟩

/-- `GDT_UCODE`. -/
def gdtUcode : BitVec 64 := 0x18

/-- `GDT_UDATA`. -/
def gdtUdata : BitVec 64 := 0x20

/-- `USER_STACK_TOP`. -/
def userStackTop : ℕ := userStackBase + 0x10000

/-- `sched_entry_frame`. -/
def schedEntryFrame : Regs :=
  { Regs.zero with
    rip := BitVec.ofNat 64 userImageBase
    cs := gdtUcode ||| 3
    rflags := 0x202
    rsp := BitVec.ofNat 64 userStackTop
    ss := gdtUdata ||| 3 }

/-- What only the scheduler reads and writes of a `task_t`. -/
structure TaskCtx where
  ctx : Regs
  wakeTicks : ℕ
  started : Bool
  onKey : Bool
  deriving DecidableEq

/-- The cleared record of `memset`. -/
def TaskCtx.zero : TaskCtx := ⟨Regs.zero, 0, false, false⟩

/-- The kernel with the globals of `sched.c`, the clock, the key buffer and the loaded page table. -/
structure State where
  kernel : Kernel
  ctxs : ℕ → TaskCtx
  current : ℕ
  schedLast : ℕ
  pitTicks : ℕ
  keys : List Byte
  loadedCr3 : ℕ

namespace State

def task (s : State) (i : ℕ) : Task := s.kernel.tasks i

/-- Store a task's state. -/
def setTaskState (s : State) (i : ℕ) (st : TaskState) : State :=
  { s with kernel := s.kernel.setTask i { s.kernel.tasks i with state := st } }

/-- Store what the scheduler keeps of a task. -/
def setCtx (s : State) (i : ℕ) (c : TaskCtx) : State :=
  { s with ctxs := Function.update s.ctxs i c }

end State

/-! ### Choosing a task -/

/-- The slots in the order `sched_pick_user` looks at them. -/
def pickOrder (last : ℕ) : List ℕ := (List.range taskMax).map fun i ↦ (last + 1 + i) % taskMax

/-- A task `sched_pick_user` takes. Slot `0` is the REPL. -/
def pickable (s : State) (i : ℕ) : Bool :=
  i != 0 && (s.task i).user && (s.task i).state == .runnable

/-- `sched_pick_user`. -/
def schedPickUser (s : State) : Option ℕ × State :=
  match (pickOrder s.schedLast).find? (pickable s) with
  | none => (none, s)
  | some i => (some i, { s with schedLast := i })

/-! ### Switches -/

/-- A task that has never run gets an entry frame. -/
def TaskCtx.enter (c : TaskCtx) : TaskCtx :=
  if c.started then c else { c with ctx := schedEntryFrame, started := true }

/-- The common part of `sched_switch_to_next` and `sched_yield_to_user`: a task gets the processor,
with the frame in its record. -/
def runTask (s : State) (next : ℕ) : Regs × State :=
  let c := (s.ctxs next).enter
  (c.ctx, { (s.setTaskState next .running).setCtx next c with
    current := next
    loadedCr3 := (s.task next).cr3 })

/-- `sched_switch_to_next`. -/
def schedSwitchToNext (s : State) : Option Regs × State :=
  match schedPickUser s with
  | (none, s) =>
    (none, { s.setTaskState 0 .runnable with current := 0, loadedCr3 := s.kernel.bootPml4 })
  | (some next, s) => (some (runTask s next).1, (runTask s next).2)

/-- `sched_yield_to_user`, called by the REPL: it returns when there is no task to run. -/
def schedYieldToUser (s : State) : Option Regs × State :=
  match schedPickUser s with
  | (none, s) => (none, s)
  | (some next, s) => (some (runTask s next).1, (runTask s next).2)

/-- `sched_preempt`. -/
def schedPreempt (s : State) (r : Regs) : Option Regs × State :=
  schedSwitchToNext ((s.setCtx s.current { s.ctxs s.current with ctx := r }).setTaskState s.current
    .runnable)

/-- `sched_block_user`. -/
def schedBlockUser (s : State) (r : Regs) (wakeTicks : ℕ) (onKey : Bool) : Option Regs × State :=
  schedSwitchToNext ((s.setCtx s.current
    { s.ctxs s.current with ctx := r, wakeTicks := wakeTicks, onKey := onKey }).setTaskState
      s.current .blocked)

/-- `sched_exit_user`. -/
def schedExitUser (s : State) : Option Regs × State :=
  schedSwitchToNext { s with kernel := Mm.schedExitUser s.kernel s.current }

/-! ### Wake-ups -/

/-- A task whose sleep is over. -/
def sleepOver (s : State) (i : ℕ) : Bool :=
  i != 0 && decide (i < taskMax) && (s.task i).state == .blocked && (s.ctxs i).wakeTicks != 0 &&
    decide ((s.ctxs i).wakeTicks ≤ s.pitTicks)

/-- A task that waits for a key. -/
def waitsForKey (s : State) (i : ℕ) : Bool :=
  i != 0 && decide (i < taskMax) && (s.task i).state == .blocked && (s.ctxs i).onKey

/-- A wake-up loop: the tasks that `woken` selects become runnable. -/
def wake (s : State) (woken : ℕ → Bool) (clear : TaskCtx → TaskCtx) : State :=
  { s with
    kernel := { s.kernel with
      tasks := fun i ↦ if woken i then { s.task i with state := .runnable } else s.task i }
    ctxs := fun i ↦ if woken i then clear (s.ctxs i) else s.ctxs i }

/-- The loop of `sched_on_tick`. -/
def wakeSleepers (s : State) : State := wake s (sleepOver s) fun c ↦ { c with wakeTicks := 0 }

/-- `sched_on_key`. -/
def schedOnKey (s : State) : State := wake s (waitsForKey s) fun c ↦ { c with onKey := false }

/-- `sched_on_tick`. -/
def schedOnTick (s : State) (r : Regs) : Option Regs × State :=
  let s := wakeSleepers s
  if (s.task s.current).user then schedPreempt s r else (some r, s)

/-- `pit_handler`. -/
def pitHandler (s : State) (r : Regs) : Option Regs × State :=
  schedOnTick { s with pitTicks := (s.pitTicks + 1) % 2 ^ 64 } r

/-! ### Spawning -/

/-- `sched_spawn`: the slot it takes is cleared, whether or not it then succeeds. -/
def schedSpawn (s : State) (code : List Byte) (need : ℕ) : ℤ × State :=
  let r := Mm.schedSpawn s.kernel code need
  (r.1, { s with
    kernel := r.2
    ctxs :=
      match freeTask s.kernel with
      | none => s.ctxs
      | some i => Function.update s.ctxs i TaskCtx.zero })

/-- The state `sched_init` leaves: the REPL runs, and no slot has been used. -/
structure Initial (s : State) : Prop where
  tasks : ∀ i, (s.task i).pid = 0 ∧ (s.task i).state = .runnable ∧ (s.task i).user = false ∧
    (s.task i).cr3 = 0 ∧ (s.task i).swapMap = [] ∧ (s.task i).modelFrames = none ∧
    (s.task i).modelMap = none ∧ ((s.task i).hasKstack = true → i = 0)
  current : s.current = 0
  nextPid : s.kernel.nextPid = 1

/-! ### Steps -/

/-- What happens to the scheduler, and elsewhere in the meantime: the memory of the tasks and the
key buffer change. -/
inductive SchedOp where
  | spawn (code : List Byte) (need : ℕ)
  | yieldToUser
  | tick (r : Regs)
  | key
  | block (r : Regs) (wakeTicks : BitVec 64) (onKey : Bool)
  | preempt (r : Regs)
  | exit
  | elsewhere (kernel : Kernel) (keys : List Byte)

/-- One step, with the frame the processor continues with. The REPL, where it keeps the processor,
is not described by a frame. -/
def step (s : State) : SchedOp → Option Regs × State
  | .spawn code need => (none, (schedSpawn s code need).2)
  | .yieldToUser => schedYieldToUser s
  | .tick r => pitHandler s r
  | .key => (none, schedOnKey s)
  | .block r wakeTicks onKey => schedBlockUser s r wakeTicks.toNat onKey
  | .preempt r => schedPreempt s r
  | .exit => schedExitUser s
  | .elsewhere kernel keys => (none, { s with kernel := kernel, keys := keys })

/-- The memory subsystems keep out of the scheduler's fields, and leave zombies alone. Without a
swap region they store no pages. -/
structure Undisturbed (k k' : Kernel) : Prop where
  tasks : ∀ i, (k'.tasks i).pid = (k.tasks i).pid ∧ (k'.tasks i).state = (k.tasks i).state ∧
    (k'.tasks i).user = (k.tasks i).user ∧ (k'.tasks i).hasKstack = (k.tasks i).hasKstack
  zombie : ∀ i, (k.tasks i).state = .zombie → (k'.tasks i).cr3 = (k.tasks i).cr3 ∧
    (k'.tasks i).swapMap = (k.tasks i).swapMap ∧
    (k'.tasks i).modelFrames = (k.tasks i).modelFrames ∧
    (k'.tasks i).modelMap = (k.tasks i).modelMap
  nextPid : k'.nextPid = k.nextPid
  active : k'.swap.active = k.swap.active
  swap : k.swap.active = false → ∀ i, (k'.tasks i).swapMap = (k.tasks i).swapMap

/-- Steps that can happen: the REPL spawns and yields, and a user task blocks, is preempted and
exits. -/
def CanHappen (s : State) : SchedOp → Prop
  | .spawn _ _ | .yieldToUser => s.current = 0
  | .block _ _ _ | .preempt _ | .exit => s.current ≠ 0
  | .tick _ | .key => True
  | .elsewhere kernel _ => Undisturbed s.kernel kernel

/-- The state in which a step hands the processor on, when it does. -/
def atSwitch (s : State) : SchedOp → Option State
  | .yieldToUser => some s
  | .tick r =>
    let u := wakeSleepers { s with pitTicks := (s.pitTicks + 1) % 2 ^ 64 }
    if (u.task u.current).user then
      some ((u.setCtx u.current { u.ctxs u.current with ctx := r }).setTaskState u.current
        .runnable)
    else none
  | .block r wakeTicks onKey =>
    some ((s.setCtx s.current { s.ctxs s.current with
      ctx := r, wakeTicks := wakeTicks.toNat, onKey := onKey }).setTaskState s.current .blocked)
  | .preempt r =>
    some ((s.setCtx s.current { s.ctxs s.current with ctx := r }).setTaskState s.current .runnable)
  | .exit => some { s with kernel := Mm.schedExitUser s.kernel s.current }
  | .spawn _ _ | .key | .elsewhere _ _ => none

end NoOsKernel.Sched
