import Mathlib.Logic.Function.Basic
import NoOsKernel.Noc.Bytecode
import NoOsKernel.Noc.Registry

/-!
# The virtual machine

`run_loop` and `noc_vm_run` of `kernel/noc/vm.c`. One stack holds the locals and the operands of all
active functions; a frame owns the locals from `vbase` on and everything above them. The builtins,
the keyboard and the addresses of string constants are parameters. A signed division that has no
64-bit quotient is no error of the machine: the processor traps.
-/

set_option autoImplicit false
set_option relaxedAutoImplicit false

namespace NoOsKernel.Noc

open Lib

def nocStackSize : ℕ := 4096
def nocMaxFrames : ℕ := 256

/-- What `vmerr` reports. -/
inductive VmError where
  | emptyProgram
  | tooManyLocals
  | stackOverflow
  | stackUnderflow
  | interrupted
  | pcOffEnd
  | badString
  | badSlot
  | badFunction
  | unknownFunction
  | tooFewArguments
  | builtinFailed
  | nestingTooDeep
  | badCallee
  | stackOverflowOnCall
  | returnAtTop
  | divisionByZero
  | unknownOpcode
  | noFrame
  deriving DecidableEq

/-- The text of an error. -/
def VmError.text : VmError → String
  | .emptyProgram => "empty program"
  | .tooManyLocals => "too many locals"
  | .stackOverflow => "stack overflow"
  | .stackUnderflow => "stack underflow"
  | .interrupted => "interrupted"
  | .pcOffEnd => "program counter ran off end of code"
  | .badString => "bad string index"
  | .badSlot => "bad local slot"
  | .badFunction => "bad function index"
  | .unknownFunction => "unknown function at runtime"
  | .tooFewArguments => "call with too few arguments on stack"
  | .builtinFailed => "builtin call failed"
  | .nestingTooDeep => "call nesting too deep"
  | .badCallee => "bad callee frame"
  | .stackOverflowOnCall => "stack overflow on call"
  | .returnAtTop => "return at top level"
  | .divisionByZero => "division by zero"
  | .unknownOpcode => "unknown opcode"
  | .noFrame => "no active frame"

/-- `frame`. `code` and `nlocals` are copied from the function when the frame is made. -/
structure Frame where
  fn : NocFn
  code : List Byte
  pc : ℕ
  vbase : ℕ
  nlocals : ℕ

/-- The machine between two instructions. The innermost frame is the first. -/
structure VmState where
  stack : ℕ → U64
  sp : ℕ
  frames : List Frame
  iters : ℕ

/-- Why a run ends. -/
inductive Stop where
  | halt (s : VmState)
  | error (e : VmError)
  | trap

/-- The result of a machine function. -/
abbrev Vm (α : Type) := Except Stop α

/-- What the machine takes from outside: the builtins by index (`none` is a failure; a builtin may
answer differently at another iteration), the address of a string constant of a function, and
whether a poll finds Esc or Ctrl+C. That a builtin does no more than answer is a premise of
everything said about runs: `MemSet` and `MemCpy` write to any address they are given, and none of
these writes is taken to reach the stack or the frames of the machine itself. -/
structure VmEnv where
  builtins : ℕ → ℕ → List U64 → Option U64
  strAddr : NocFn → ℕ → U64
  kbd : ℕ → Bool

/-! ### Stack -/

/-- `push`. -/
def vmPush (s : VmState) (v : U64) : Vm VmState :=
  if nocStackSize ≤ s.sp then .error (.error .stackOverflow)
  else .ok { s with stack := Function.update s.stack s.sp v, sp := s.sp + 1 }

/-- `pop`. -/
def vmPop (s : VmState) : Vm (U64 × VmState) :=
  if s.sp = 0 then .error (.error .stackUnderflow)
  else .ok (s.stack (s.sp - 1), { s with sp := s.sp - 1 })

/-- The machine with the innermost program counter set. -/
def VmState.setPc (s : VmState) (pc : ℕ) : VmState :=
  { s with frames := s.frames.modifyHead fun f ↦ { f with pc := pc } }

/-! ### Arithmetic -/

/-- A truth value as a word. -/
def boolWord (b : Bool) : U64 := if b then 1 else 0

/-- The one pair of words whose signed quotient is no 64-bit number. -/
def divOverflows (a b : U64) : Bool := decide (a = BitVec.intMin 64 ∧ b = -1)

/-- A signed division of the processor, which traps when the quotient does not fit. -/
def cpuDivide (a b r : U64) : Vm U64 :=
  if b = 0 then .error (.error .divisionByZero)
  else if divOverflows a b then .error .trap
  else .ok r

/-- The inner `switch` of the binary opcodes. -/
def vmBin (op : BinOp) (a b : U64) : Vm U64 :=
  match op with
  | .add => .ok (a + b)
  | .sub => .ok (a - b)
  | .mul => .ok (a * b)
  | .div => cpuDivide a b (a.sdiv b)
  | .mod => cpuDivide a b (a.srem b)
  | .eq => .ok (boolWord (a == b))
  | .ne => .ok (boolWord (a != b))
  | .lt => .ok (boolWord (a.slt b))
  | .le => .ok (boolWord (a.sle b))
  | .gt => .ok (boolWord (b.slt a))
  | .ge => .ok (boolWord (b.sle a))
  | .band => .ok (a &&& b)
  | .bor => .ok (a ||| b)
  | .bxor => .ok (a ^^^ b)
  | .shl => .ok (a <<< (b &&& 63).toNat)
  | .shr => .ok (a >>> (b &&& 63).toNat)

/-! ### Instructions -/

variable (reg : Registry) (env : VmEnv)

/-- The `count` words on top of the stack, in the order they were pushed. -/
def topWords (s : VmState) (count : ℕ) : List U64 :=
  (List.range count).map fun k ↦ s.stack (s.sp - count + k)

/-- The part of `OP_CALL` that enters a function of the session: its locals start with the arguments
and are zero beyond them. -/
def vmEnter (s : VmState) (callee : NocFn) (count : ℕ) : Vm VmState :=
  let vbase := s.sp - count
  if nocMaxFrames ≤ s.frames.length then .error (.error .nestingTooDeep)
  else if callee.nlocals < count then .error (.error .badCallee)
  else if nocStackSize < vbase + callee.nlocals then .error (.error .stackOverflowOnCall)
  else
    let frame : Frame :=
      { fn := callee, code := callee.code.getD [], pc := 0, vbase := vbase,
        nlocals := callee.nlocals }
    .ok { s with
      stack := fun k ↦
        if vbase + count ≤ k ∧ k < vbase + callee.nlocals then 0 else s.stack k
      sp := vbase + callee.nlocals
      frames := frame :: s.frames }

/-- `OP_CALL`. -/
def vmCall (s : VmState) (f : Frame) (si count : ℕ) : Vm VmState :=
  match f.fn.strings[si]? with
  | none => .error (.error .badFunction)
  | some name =>
    match nocLookup reg name with
    | none => .error (.error .unknownFunction)
    | some callee =>
      if s.sp < count then .error (.error .tooFewArguments)
      else
        match callee.builtin with
        | none => vmEnter s callee count
        | some index =>
          match env.builtins s.iters index (topWords s count) with
          | none => .error (.error .builtinFailed)
          | some ret => vmPush { s with sp := s.sp - count } ret

/-- The `switch` of `run_loop`. The program counter of the innermost frame `f` is already behind the
instruction. -/
def vmExec (s : VmState) (f : Frame) : Instr → Vm VmState
  | .push v => vmPush s v
  | .pushStr si =>
    if f.fn.strings.length ≤ si then .error (.error .badString) else vmPush s (env.strAddr f.fn si)
  | .dup =>
    if s.sp = 0 then .error (.error .stackUnderflow) else vmPush s (s.stack (s.sp - 1))
  | .pop => if s.sp = 0 then .error (.error .stackUnderflow) else .ok { s with sp := s.sp - 1 }
  | .load slot =>
    if f.nlocals ≤ slot then .error (.error .badSlot) else vmPush s (s.stack (f.vbase + slot))
  | .store slot => do
    let (v, s) ← vmPop s
    if f.nlocals ≤ slot then throw (.error .badSlot)
    return { s with stack := Function.update s.stack (f.vbase + slot) v }
  | .call si count => vmCall reg env s f si count
  | .ret =>
    if s.frames.length = 1 then .error (.error .returnAtTop)
    else do
      let (v, s) ← vmPop s
      vmPush { s with sp := f.vbase, frames := s.frames.tail } v
  | .jmp target => .ok (s.setPc target)
  | .jmpf target => do
    let (v, s) ← vmPop s
    return if v = 0 then s.setPc target else s
  | .jmpt target => do
    let (v, s) ← vmPop s
    return if v ≠ 0 then s.setPc target else s
  | .bin op => do
    let (b, s) ← vmPop s
    let (a, s) ← vmPop s
    let r ← vmBin op a b
    vmPush s r
  | .not => do
    let (a, s) ← vmPop s
    vmPush s (boolWord (a == 0))
  | .neg => do
    let (a, s) ← vmPop s
    vmPush s (-a)
  | .bnot => do
    let (a, s) ← vmPop s
    vmPush s (~~~a)
  | .halt => .error (.halt s)
  | .unknown _ => .error (.error .unknownOpcode)

/-- One round of the loop of `run_loop`. Every 256th one polls the keyboard. -/
def vmStep (s : VmState) : Vm VmState :=
  match s.frames with
  | [] => .error (.error .noFrame)
  | f :: rest =>
    if s.iters % 256 = 0 ∧ env.kbd s.iters = true then .error (.error .interrupted)
    else if f.code.length ≤ f.pc then .error (.error .pcOffEnd)
    else
      let (i, pc) := decode f.code f.pc
      vmExec reg env
        { s with frames := { f with pc := pc } :: rest, iters := s.iters + 1 } f i

/-- `run_loop`, cut off after `fuel` rounds. -/
def runLoop : ℕ → VmState → Option Stop
  | 0, _ => none
  | fuel + 1, s =>
    match vmStep reg env s with
    | .ok s' => runLoop fuel s'
    | .error stop => some stop

/-! ### Runs -/

/-- The loop of `noc_vm_run` that makes room for the locals. -/
def pushZeros : ℕ → VmState → Vm VmState
  | 0, s => .ok s
  | n + 1, s => do
    let s ← vmPush s 0
    pushZeros n s

/-- `noc_vm_run` up to its `run_loop`. The stack still holds what the last run has left there. -/
def vmStart (f : NocFn) (stack : ℕ → U64) : Vm VmState :=
  match f.code with
  | none => .error (.error .emptyProgram)
  | some code =>
    if nocStackSize < f.nlocals then .error (.error .tooManyLocals)
    else do
      let s ← pushZeros f.nlocals ⟨stack, 0, [], 0⟩
      return { s with frames := [⟨f, code, 0, 0, f.nlocals⟩] }

/-- How a run ends and the result it leaves. -/
structure VmOutcome where
  stop : Stop
  result : Option U64

/-- The result of a chunk that ends with an expression. -/
def takeResult (f : NocFn) : Stop → Option U64
  | .halt s => if f.lastExpr then some (s.stack f.nlocals) else none
  | _ => none

/-- `noc_vm_run`, cut off after `fuel` rounds. -/
def nocVmRun (fuel : ℕ) (f : NocFn) (stack : ℕ → U64) : Option VmOutcome :=
  match vmStart f stack with
  | .error stop => some ⟨stop, none⟩
  | .ok s =>
    match runLoop reg env fuel s with
    | none => none
    | some stop => some ⟨stop, takeResult f stop⟩

end NoOsKernel.Noc
