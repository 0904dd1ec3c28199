import NoOsKernel.Lib.CodeBuf
import NoOsKernel.Noc.Ast

/-!
# Bytecode

The instructions of the virtual machine as the compiler writes them and `run_loop` reads them: an
opcode byte, then an immediate of eight bytes for `OP_PUSH`, of four for slots, strings and jump
targets, and of twice four for `OP_CALL`.
-/

set_option autoImplicit false
set_option relaxedAutoImplicit false

namespace NoOsKernel.Noc

open Lib

/-- An instruction with its immediates. -/
inductive Instr where
  | push (v : U64)
  | pushStr (si : ℕ)
  | dup
  | pop
  | load (slot : ℕ)
  | store (slot : ℕ)
  | call (si count : ℕ)
  | ret
  | jmp (target : ℕ)
  | jmpf (target : ℕ)
  | jmpt (target : ℕ)
  | bin (op : BinOp)
  | not
  | neg
  | bnot
  | halt
  | unknown (op : ℕ)
  deriving DecidableEq

/-- `OP_PUSH` and the other opcodes, by their place in the enumeration. -/
def opPush : Byte := 0
def opPushStr : Byte := 1
def opDup : Byte := 2
def opPop : Byte := 3
def opLoad : Byte := 4
def opStore : Byte := 5
def opCall : Byte := 6
def opRet : Byte := 7
def opJmp : Byte := 8
def opJmpf : Byte := 9
def opJmpt : Byte := 10
def opNot : Byte := 27
def opNeg : Byte := 28
def opBnot : Byte := 29
def opHalt : Byte := 30

/-- `OP_ADD` to `OP_SHR`. -/
def BinOp.opcode : BinOp → Byte
  | .add => 11
  | .sub => 12
  | .mul => 13
  | .div => 14
  | .mod => 15
  | .eq => 16
  | .ne => 17
  | .lt => 18
  | .le => 19
  | .gt => 20
  | .ge => 21
  | .band => 22
  | .bor => 23
  | .bxor => 24
  | .shl => 25
  | .shr => 26

/-- The bytes of an instruction. -/
def encode : Instr → List Byte
  | .push v => opPush :: leBytes 8 v.toNat
  | .pushStr si => opPushStr :: leBytes 4 si
  | .dup => [opDup]
  | .pop => [opPop]
  | .load slot => opLoad :: leBytes 4 slot
  | .store slot => opStore :: leBytes 4 slot
  | .call si count => opCall :: (leBytes 4 si ++ leBytes 4 count)
  | .ret => [opRet]
  | .jmp target => opJmp :: leBytes 4 target
  | .jmpf target => opJmpf :: leBytes 4 target
  | .jmpt target => opJmpt :: leBytes 4 target
  | .bin op => [op.opcode]
  | .not => [opNot]
  | .neg => [opNeg]
  | .bnot => [opBnot]
  | .halt => [opHalt]
  | .unknown op => [BitVec.ofNat 8 op]

/-- The instruction at a position and the position after it, as `run_loop` reads them. -/
def decode (code : List Byte) (pc : ℕ) : Instr × ℕ :=
  match (code.getD pc 0).toNat with
  | 0 => (.push (BitVec.ofNat 64 (readLe code (pc + 1) 8)), pc + 9)
  | 1 => (.pushStr (readLe code (pc + 1) 4), pc + 5)
  | 2 => (.dup, pc + 1)
  | 3 => (.pop, pc + 1)
  | 4 => (.load (readLe code (pc + 1) 4), pc + 5)
  | 5 => (.store (readLe code (pc + 1) 4), pc + 5)
  | 6 => (.call (readLe code (pc + 1) 4) (readLe code (pc + 5) 4), pc + 9)
  | 7 => (.ret, pc + 1)
  | 8 => (.jmp (readLe code (pc + 1) 4), pc + 5)
  | 9 => (.jmpf (readLe code (pc + 1) 4), pc + 5)
  | 10 => (.jmpt (readLe code (pc + 1) 4), pc + 5)
  | 11 => (.bin .add, pc + 1)
  | 12 => (.bin .sub, pc + 1)
  | 13 => (.bin .mul, pc + 1)
  | 14 => (.bin .div, pc + 1)
  | 15 => (.bin .mod, pc + 1)
  | 16 => (.bin .eq, pc + 1)
  | 17 => (.bin .ne, pc + 1)
  | 18 => (.bin .lt, pc + 1)
  | 19 => (.bin .le, pc + 1)
  | 20 => (.bin .gt, pc + 1)
  | 21 => (.bin .ge, pc + 1)
  | 22 => (.bin .band, pc + 1)
  | 23 => (.bin .bor, pc + 1)
  | 24 => (.bin .bxor, pc + 1)
  | 25 => (.bin .shl, pc + 1)
  | 26 => (.bin .shr, pc + 1)
  | 27 => (.not, pc + 1)
  | 28 => (.neg, pc + 1)
  | 29 => (.bnot, pc + 1)
  | 30 => (.halt, pc + 1)
  | op => (.unknown op, pc + 1)

/-- Immediates that fit their fields; no opcode the machine does not know. -/
def Instr.Fits : Instr → Prop
  | .pushStr si => si < 2 ^ 32
  | .load slot => slot < 2 ^ 32
  | .store slot => slot < 2 ^ 32
  | .call si count => si < 2 ^ 32 ∧ count < 2 ^ 32
  | .jmp target => target < 2 ^ 32
  | .jmpf target => target < 2 ^ 32
  | .jmpt target => target < 2 ^ 32
  | .unknown _ => False
  | _ => True

/-- An instruction stands at `p` and ends at `q`. -/
def InstrAt (code : List Byte) (p : ℕ) (i : Instr) (q : ℕ) : Prop :=
  BytesAt code p (encode i) ∧ i.Fits ∧ q = p + (encode i).length

variable {code : List Byte} {p q : ℕ} {i : Instr}

theorem encode_ne_nil (i : Instr) : encode i ≠ [] := by
  cases i <;> exact List.cons_ne_nil _ _

theorem InstrAt.lt_length (h : InstrAt code p i q) : p < code.length :=
  h.1.lt_length (encode_ne_nil i)

theorem BytesAt.opcode {op : Byte} {bs : List Byte} (h : BytesAt code p (op :: bs)) :
    code.getD p 0 = op ∧ BytesAt code (p + 1) bs := by
  have hfirst := h 0 (by rw [List.length_cons]; omega)
  rw [Nat.add_zero] at hfirst
  refine ⟨by rw [List.getD_eq_getElem?_getD, hfirst]; rfl, ?_⟩
  have hsplit : BytesAt code p ([op] ++ bs) := h
  exact hsplit.right

/-- The machine reads back what the compiler writes. -/
theorem InstrAt.decode (h : InstrAt code p i q) : decode code p = (i, q) := by
  obtain ⟨hbytes, hfits, rfl⟩ := h
  cases i with
  | push v =>
    obtain ⟨hop, himm⟩ := BytesAt.opcode hbytes
    rw [Noc.decode, hop, himm.readLe (by have := v.isLt; omega)]
    simp [opPush, encode]
  | call si count =>
    obtain ⟨hop, himm⟩ := BytesAt.opcode hbytes
    have hsi := himm.left.readLe (by have := hfits.1; omega)
    have hcount := himm.right.readLe (by have := hfits.2; omega)
    rw [length_leBytes] at hcount
    rw [Noc.decode, hop, hsi, show p + 5 = p + 1 + 4 by omega, hcount]
    simp [opCall, encode]
  | unknown op => exact absurd hfits id
  | pushStr v =>
    obtain ⟨hop, himm⟩ := BytesAt.opcode hbytes
    rw [Noc.decode, hop, himm.readLe (by exact hfits)]
    simp [opPushStr, encode]
  | load v =>
    obtain ⟨hop, himm⟩ := BytesAt.opcode hbytes
    rw [Noc.decode, hop, himm.readLe (by exact hfits)]
    simp [opLoad, encode]
  | store v =>
    obtain ⟨hop, himm⟩ := BytesAt.opcode hbytes
    rw [Noc.decode, hop, himm.readLe (by exact hfits)]
    simp [opStore, encode]
  | jmp v =>
    obtain ⟨hop, himm⟩ := BytesAt.opcode hbytes
    rw [Noc.decode, hop, himm.readLe (by exact hfits)]
    simp [opJmp, encode]
  | jmpf v =>
    obtain ⟨hop, himm⟩ := BytesAt.opcode hbytes
    rw [Noc.decode, hop, himm.readLe (by exact hfits)]
    simp [opJmpf, encode]
  | jmpt v =>
    obtain ⟨hop, himm⟩ := BytesAt.opcode hbytes
    rw [Noc.decode, hop, himm.readLe (by exact hfits)]
    simp [opJmpt, encode]
  | bin op =>
    obtain ⟨hop, -⟩ := BytesAt.opcode hbytes
    rw [Noc.decode, hop]
    cases op <;> rfl
  | dup => rw [Noc.decode, (BytesAt.opcode hbytes).1]; rfl
  | pop => rw [Noc.decode, (BytesAt.opcode hbytes).1]; rfl
  | ret => rw [Noc.decode, (BytesAt.opcode hbytes).1]; rfl
  | not => rw [Noc.decode, (BytesAt.opcode hbytes).1]; rfl
  | neg => rw [Noc.decode, (BytesAt.opcode hbytes).1]; rfl
  | bnot => rw [Noc.decode, (BytesAt.opcode hbytes).1]; rfl
  | halt => rw [Noc.decode, (BytesAt.opcode hbytes).1]; rfl

end NoOsKernel.Noc
