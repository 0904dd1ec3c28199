import NoOsKernel.Lib.Buf

/-!
# Syntax trees of NOC

The trees `kernel/noc/parser.c` builds. The one node type of the source is split by what the parser
puts into it: `A_BIN` into strict and short-circuit operators, `A_UN` into operators and prefix
increments (whose operand is a variable, the parser sees to that), and `A_FOR` by the kind of its
first clause. Names are C strings, without their terminator.
-/

set_option autoImplicit false
set_option relaxedAutoImplicit false

namespace NoOsKernel.Noc

open Lib

/-- A machine word of the virtual machine. -/
abbrev U64 := BitVec 64

/-- A C string. -/
abbrev Name := List Byte

/-- `NTYPE_*`. -/
inductive NType where
  | void
  | i64
  | u64
  | bool
  | str
  | u8
  | i8
  | u16
  | i16
  | u32
  | i32
  | f64
  deriving DecidableEq

/-- The strict operators of `A_BIN`, in the order of the source. -/
inductive BinOp where
  | add
  | sub
  | mul
  | div
  | mod
  | eq
  | ne
  | lt
  | le
  | gt
  | ge
  | band
  | bor
  | bxor
  | shl
  | shr
  deriving DecidableEq

/-- The unary operators that are no increments. -/
inductive UnOp where
  | neg
  | not
  | bnot
  deriving DecidableEq

/-- The operators of `A_ASSIGN`. -/
inductive AssignOp where
  | assign
  | add
  | sub
  | mul
  | div
  deriving DecidableEq

/-- Expressions. `logic true` is `&&` and `logic false` is `||`. -/
inductive Expr where
  | lit (v : U64)
  | str (s : Name)
  | var (x : Name)
  | call (f : Name) (args : List Expr)
  | bin (op : BinOp) (a b : Expr)
  | logic (isAnd : Bool) (a b : Expr)
  | un (op : UnOp) (a : Expr)
  | preinc (x : Name) (plus : Bool)
  | postinc (x : Name) (plus : Bool)
  | assign (op : AssignOp) (x : Name) (a : Expr)

/-- A parameter of a function, with its default value. -/
structure Param where
  name : Name
  type : NType
  default : Option U64

/-- `NOC_MAX_ARGS`. -/
def nocMaxArgs : ℕ := 16

/-- A parameter list the parser makes. -/
abbrev Params := { ps : List Param // ps.length ≤ nocMaxArgs }

/-- The first clause of a `for`. -/
inductive ForInit where
  | none
  | decl (x : Name) (type : NType) (init : Option Expr)
  | expr (e : Expr)

/-- Statements. -/
inductive Stmt where
  | expr (e : Expr)
  | decl (x : Name) (type : NType) (init : Option Expr)
  | block (body : List Stmt)
  | ifThen (c : Expr) (t : Stmt)
  | ifElse (c : Expr) (t e : Stmt)
  | while (c : Expr) (body : Stmt)
  | for (init : ForInit) (c post : Option Expr) (body : Stmt)
  | ret (e : Option Expr)
  | func (type : NType) (name : Name) (params : Params) (body : List Stmt)

end NoOsKernel.Noc
