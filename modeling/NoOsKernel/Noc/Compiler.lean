import NoOsKernel.Noc.Bytecode
import NoOsKernel.Noc.Registry

/-!
# The one-pass compiler

`kernel/noc/compiler.c`: code is emitted into one growing buffer, jumps are emitted with a
placeholder and patched once their target is known, and string constants and variables get their
indices as they are met. A failed line keeps the functions it has registered so far.
-/

set_option autoImplicit false
set_option relaxedAutoImplicit false

namespace NoOsKernel.Noc

open Lib

/-- What `cerr` and `cerr_name` report. The compiler's complaints about nodes the parser never makes
have no counterpart. -/
inductive CompileError where
  | codeBufferMemory
  | stringMemory
  | functionMemory
  | functionNameMemory
  | tooManyStrings
  | tooManyLocals
  | alreadyDeclared (x : Name)
  | undeclared (x : Name)
  | unknownFunction (f : Name)
  | tooFewArguments (f : Name)
  | tooManyArguments (f : Name)
  | returnOutsideFunction
  | nestedFunction
  | tableFull
  deriving DecidableEq

/-- The text of an error with the name that goes into it; a full function table has none. -/
def CompileError.text : CompileError → Option (String × Option Name)
  | .codeBufferMemory => some ("out of memory (code buffer)", none)
  | .stringMemory => some ("out of memory (string constant)", none)
  | .functionMemory => some ("out of memory (function)", none)
  | .functionNameMemory => some ("out of memory (function name)", none)
  | .tooManyStrings => some ("too many string constants", none)
  | .tooManyLocals => some ("too many local variables", none)
  | .alreadyDeclared x => some ("variable '%s' already declared", some x)
  | .undeclared x => some ("undeclared variable '%s'", some x)
  | .unknownFunction f => some ("unknown function '%s'", some f)
  | .tooFewArguments f => some ("too few arguments for '%s'", some f)
  | .tooManyArguments f => some ("too many arguments for '%s'", some f)
  | .returnOutsideFunction => some ("return outside function", none)
  | .nestedFunction => some ("nested function definitions are not supported", none)
  | .tableFull => none

/-- `ccomp`, with the fields of the function it compiles into. `nalloc` counts the allocations. -/
structure CComp where
  syms : List (Name × NType)
  code : List Byte
  cap : ℕ
  strings : List Name
  lastExpr : Bool
  inFn : Bool
  nalloc : ℕ

/-- The result of a compiler function. -/
abbrev Compiled := Except CompileError CComp

theorem exists_of_bind_eq_ok {ε α β : Type} {x : Except ε α} {f : α → Except ε β} {b : β}
    (h : (x >>= f) = .ok b) : ∃ a, x = .ok a ∧ f a = .ok b := by
  cases x with
  | error e => exact absurd h (by rintro ⟨⟩)
  | ok a => exact ⟨a, rfl, h⟩

variable (os : NocOs) (reg : Registry)

/-! ### The code buffer -/

/-- The loop that doubles a capacity. `fuel` doublings are enough. -/
def growCap : ℕ → ℕ → ℕ → ℕ
  | 0, ncap, _ => ncap
  | fuel + 1, ncap, need => if ncap < need then growCap fuel (ncap * 2) need else ncap

/-- `buf_ensure`. -/
def bufEnsure (c : CComp) (extra : ℕ) : Compiled :=
  let need := c.code.length + extra
  if need ≤ c.cap then .ok c
  else
    let ncap := growCap need (if c.cap ≠ 0 then c.cap * 2 else 1024) need
    if os.alloc c.nalloc ncap then .ok { c with cap := ncap, nalloc := c.nalloc + 1 }
    else .error .codeBufferMemory

/-- Room for some bytes and the bytes. -/
def emit (c : CComp) (bs : List Byte) : Compiled := do
  let c ← bufEnsure os c bs.length
  return { c with code := c.code ++ bs }

/-- `emit1`. -/
def emit1 (c : CComp) (op : Byte) : Compiled := emit os c [op]

/-- `emit1v`. -/
def emit1v (c : CComp) (op : Byte) (v : U64) : Compiled := emit os c (op :: leBytes 8 v.toNat)

/-- `emit1u32`. -/
def emit1u32 (c : CComp) (op : Byte) (v : ℕ) : Compiled := emit os c (op :: leBytes 4 v)

/-- `emit_jump`, which returns the position of the jump; here that is the old `codePc`. -/
def emitJump (c : CComp) (op : Byte) : Compiled := emit os c (op :: leBytes 4 0)

/-- `patch_jump`. -/
def patchJump (c : CComp) (at_ target : ℕ) : CComp :=
  { c with code := overwrite c.code (at_ + 1) (leBytes 4 target) }

/-- `code_pc`. -/
def codePc (c : CComp) : ℕ := c.code.length

/-- `emit_jump_at`. -/
def emitJumpAt (c : CComp) (op : Byte) (target : ℕ) : Compiled := do
  let c' ← emitJump os c op
  return patchJump c' (codePc c) target

/-! ### Strings and variables -/

/-- `add_string`, with the index of the string. -/
def addString (c : CComp) (s : Name) : Except CompileError (CComp × ℕ) :=
  match c.strings.findIdx? fun t ↦ decide (t = s) with
  | some i => .ok (c, i)
  | none =>
    if nocMaxStrings ≤ c.strings.length then .error .tooManyStrings
    else if os.alloc c.nalloc (s.length + 1) then
      .ok ({ c with strings := c.strings ++ [s], nalloc := c.nalloc + 1 }, c.strings.length)
    else .error .stringMemory

/-- `resolve_var`: the last symbol of that name. -/
def resolveVar : List (Name × NType) → Name → Option ℕ
  | [], _ => none
  | sym :: syms, x =>
    match resolveVar syms x with
    | some s => some (s + 1)
    | none => if sym.1 = x then some 0 else none

/-- `resolve_var` where its failure ends the line. -/
def resolveOr (c : CComp) (x : Name) : Except CompileError ℕ :=
  match resolveVar c.syms x with
  | some s => .ok s
  | none => .error (.undeclared x)

/-- `add_var`; the new slot is the old number of symbols. -/
def addVar (c : CComp) (x : Name) (type : NType) : Compiled :=
  if (resolveVar c.syms x).isSome then .error (.alreadyDeclared x)
  else if nocMaxLocals ≤ c.syms.length then .error .tooManyLocals
  else .ok { c with syms := c.syms ++ [(x, type)] }

/-- `expr_type`. -/
def exprType (syms : List (Name × NType)) : Expr → NType
  | .str _ => .str
  | .var x =>
    match resolveVar syms x with
    | some s => (syms.getD s (x, .i64)).2
    | none => .i64
  | .call f _ =>
    match nocLookup reg f with
    | some callee => callee.retType
    | none => .i64
  | _ => .i64

/-! ### Expressions -/

/-- The defaults a call pushes for the arguments it leaves out, or the first check that fails. -/
def callDefaults (callee : NocFn) (f : Name) (nargs : ℕ) : Except CompileError (List U64) :=
  if callee.variadic then
    if nargs < callee.nargs then .error (.tooFewArguments f) else .ok []
  else if callee.nargs < nargs then .error (.tooManyArguments f)
  else if (callee.defaults.drop nargs).any fun d ↦ d.isNone then .error (.tooFewArguments f)
  else .ok ((callee.defaults.drop nargs).map fun d ↦ d.getD 0)

/-- The loop of `compile_call` that pushes the defaults. -/
def emitDefaults : CComp → List U64 → Compiled
  | c, [] => .ok c
  | c, v :: vs => do
    let c ← emit1v os c opPush v
    emitDefaults c vs

/-- The end of `compile_call`: the name of the function and the instruction. -/
def emitCall (c : CComp) (f : Name) (count : ℕ) : Compiled := do
  let (c, si) ← addString os c f
  emit os c (opCall :: (leBytes 4 si ++ leBytes 4 count))

/-- `compile_call` over what compiles its `nargs` arguments. -/
def compileCallWith (c : CComp) (f : Name) (nargs : ℕ) (args : CComp → Compiled) : Compiled :=
  match nocLookup reg f with
  | none => .error (.unknownFunction f)
  | some callee => do
    let defaults ← callDefaults callee f nargs
    let c ← args c
    let c ← emitDefaults os c defaults
    emitCall os c f (nargs + defaults.length)

/-- The step of a prefix or postfix `++` or `--`. -/
def incStep (plus : Bool) : U64 := if plus then 1 else -1

/-- The operator of a compound assignment. -/
def AssignOp.binOp : AssignOp → Option BinOp
  | .assign => none
  | .add => some .add
  | .sub => some .sub
  | .mul => some .mul
  | .div => some .div

/-- `OP_NEG`, `OP_NOT` and `OP_BNOT`. -/
def UnOp.opcode : UnOp → Byte
  | .neg => opNeg
  | .not => opNot
  | .bnot => opBnot

mutual

/-- `compile_expr` with `compile_bin` and `compile_assign`. -/
def compileExpr (c : CComp) : Expr → Compiled
  | .lit v => emit1v os c opPush v
  | .str s => do
    let (c, si) ← addString os c s
    emit1u32 os c opPushStr si
  | .var x => do
    let s ← resolveOr c x
    emit1u32 os c opLoad s
  | .call f args => compileCallWith os reg c f args.length fun c ↦ compileArgs c args
  | .logic isAnd a b => do
    let c ← compileExpr c a
    let j1 := codePc c
    let c ← emitJump os c (if isAnd then opJmpf else opJmpt)
    let c ← compileExpr c b
    let j2 := codePc c
    let c ← emitJump os c (if isAnd then opJmpf else opJmpt)
    let lFalseOrTrue := codePc c
    let c ← emit1v os c opPush (if isAnd then 0 else 1)
    let j3 := codePc c
    let c ← emitJump os c opJmp
    let lDone := codePc c
    let c ← emit1v os c opPush (if isAnd then 1 else 0)
    let c := patchJump c j1 lFalseOrTrue
    let c := patchJump c j2 lFalseOrTrue
    return patchJump c j3 lDone
  | .bin op a b => do
    let c ← compileExpr c a
    let c ← compileExpr c b
    emit1 os c op.opcode
  | .un op a => do
    let c ← compileExpr c a
    emit1 os c op.opcode
  -- the operand is compiled like any other before the kind of the operator is looked at
  | .preinc x plus => do
    let s ← resolveOr c x
    let c ← emit1u32 os c opLoad s
    let c ← emit1u32 os c opLoad s
    let c ← emit1v os c opPush (incStep plus)
    let c ← emit1 os c (BinOp.add).opcode
    let c ← emit1 os c opDup
    emit1u32 os c opStore s
  | .postinc x plus => do
    let s ← resolveOr c x
    let c ← emit1u32 os c opLoad s
    let c ← emit1 os c opDup
    let c ← emit1v os c opPush (incStep plus)
    let c ← emit1 os c (BinOp.add).opcode
    emit1u32 os c opStore s
  | .assign op x a => do
    let s ← resolveOr c x
    match op.binOp with
    | none =>
      let c ← compileExpr c a
      let c ← emit1 os c opDup
      emit1u32 os c opStore s
    | some bin =>
      let c ← emit1u32 os c opLoad s
      let c ← compileExpr c a
      let c ← emit1 os c bin.opcode
      let c ← emit1 os c opDup
      emit1u32 os c opStore s

/-- The arguments of a call, in order. -/
def compileArgs (c : CComp) : List Expr → Compiled
  | [] => .ok c
  | e :: es => do
    let c ← compileExpr c e
    compileArgs c es

end

/-! ### Statements -/

/-- An expression whose value is dropped. -/
def compileDrop (c : CComp) (e : Expr) : Compiled := do
  let c ← compileExpr os reg c e
  emit1 os c opPop

/-- A declaration. -/
def compileDecl (c : CComp) (x : Name) (type : NType) (init : Option Expr) : Compiled := do
  let slot := c.syms.length
  let c ← addVar c x type
  match init with
  | none => return c
  | some e =>
    let c ← compileExpr os reg c e
    emit1u32 os c opStore slot

/-- The function a bare identifier calls when no variable has its name. -/
def bareCall (c : CComp) : Expr → Option NocFn
  | .var x => if (resolveVar c.syms x).isSome then none else nocLookup reg x
  | _ => none

/-- The end of an expression statement: the value of the last statement of a line stays. -/
def finishExpr (c : CComp) (last nonvoid : Bool) : Compiled :=
  if last && nonvoid && !c.inFn then .ok { c with lastExpr := true } else emit1 os c opPop

/-- An expression statement. -/
def compileStmtExpr (c : CComp) (e : Expr) (last : Bool) : Compiled :=
  match e, bareCall reg c e with
  | .var x, some f => do
    let c ← compileCallWith os reg c x 0 .ok
    finishExpr os c last (decide (f.retType ≠ .void))
  | e, _ => do
    let nonvoid := decide (exprType reg c.syms e ≠ .void)
    let c ← compileExpr os reg c e
    finishExpr os c last nonvoid

/-- The first clause of a `for`. -/
def compileInit (c : CComp) : ForInit → Compiled
  | .none => .ok c
  | .decl x type init => compileDecl os reg c x type init
  | .expr e => compileDrop os reg c e

/-- The last clause of a `for`. -/
def compilePost (c : CComp) : Option Expr → Compiled
  | none => .ok c
  | some e => compileDrop os reg c e

mutual

/-- `compile_stmt`. -/
def compileStmt (c : CComp) (last : Bool) : Stmt → Compiled
  | .expr e => compileStmtExpr os reg c e last
  | .decl x type init => compileDecl os reg c x type init
  | .block body => compileBlock c body
  | .ifThen cond t => do
    let c ← compileExpr os reg c cond
    let je := codePc c
    let c ← emitJump os c opJmpf
    let c ← compileStmt c false t
    let lElse := codePc c
    return patchJump c je lElse
  | .ifElse cond t e => do
    let c ← compileExpr os reg c cond
    let je := codePc c
    let c ← emitJump os c opJmpf
    let c ← compileStmt c false t
    let jd := codePc c
    let c ← emitJump os c opJmp
    let lElse := codePc c
    let c ← compileStmt c false e
    let lDone := codePc c
    let c := patchJump c je lElse
    return patchJump c jd lDone
  | .while cond body => do
    let lTop := codePc c
    let c ← compileExpr os reg c cond
    let je := codePc c
    let c ← emitJump os c opJmpf
    let c ← compileStmt c false body
    let c ← emitJumpAt os c opJmp lTop
    let lEnd := codePc c
    return patchJump c je lEnd
  | .for init cond post body => do
    let c ← compileInit os reg c init
    let lTop := codePc c
    match cond with
    | none =>
      let c ← compileStmt c false body
      let c ← compilePost os reg c post
      emitJumpAt os c opJmp lTop
    | some cond =>
      let c ← compileExpr os reg c cond
      let je := codePc c
      let c ← emitJump os c opJmpf
      let c ← compileStmt c false body
      let c ← compilePost os reg c post
      let c ← emitJumpAt os c opJmp lTop
      let lEnd := codePc c
      return patchJump c je lEnd
  | .ret e =>
    if !c.inFn then .error .returnOutsideFunction
    else do
      let c ← match e with
        | some e => compileExpr os reg c e
        | none => emit1v os c opPush 0
      emit1 os c opRet
  | .func _ _ _ _ => .error .nestedFunction

/-- The statements of a block. -/
def compileBlock (c : CComp) : List Stmt → Compiled
  | [] => .ok c
  | s :: ss => do
    let c ← compileStmt c false s
    compileBlock c ss

end

/-! ### Functions and lines -/

/-- The compiler at the start of a function or line. -/
def CComp.start (syms : List (Name × NType)) (inFn : Bool) (nalloc : ℕ) : CComp where
  syms := syms
  code := []
  cap := 0
  strings := []
  lastExpr := false
  inFn := inFn
  nalloc := nalloc

/-- The body of a function with its implicit `return 0`. -/
def compileBody (params : List Param) (body : List Stmt) (nalloc : ℕ) : Compiled := do
  let sub := CComp.start (params.map fun p ↦ (p.name, p.type)) true nalloc
  let sub ← compileBlock os reg sub body
  let sub ← emit1v os sub opPush 0
  emit1 os sub opRet

/-- The function a compiled body makes. -/
def userFn (type : NType) (name : Name) (params : List Param) (sub : CComp) : NocFn where
  name := name
  code := some sub.code
  strings := sub.strings
  nargs := params.length
  nlocals := sub.syms.length
  retType := type
  defaults := params.map fun p ↦ p.default
  builtin := none
  variadic := false
  lastExpr := false

/-- `compile_funcdecl` on a line: the new table and the number of allocations so far. -/
def compileFuncdecl (nalloc : ℕ) (type : NType) (name : Name) (params : Params)
    (body : List Stmt) : Except CompileError (Registry × ℕ) :=
  if !os.alloc nalloc nocFnSize then .error .functionMemory
  else if !os.alloc (nalloc + 1) (name.length + 1) then .error .functionNameMemory
  else do
    let sub ← compileBody os reg params.val body (nalloc + 2)
    match nocRegisterUserFn reg (userFn type name params.val sub) with
    | some reg' => return (reg', sub.nalloc)
    | none => throw .tableFull

/-- The loop of `noc_compile` over the statements of a line. The table it leaves behind stays also
when it fails. -/
def compileLine (reg : Registry) (c : CComp) : List Stmt → Registry × Compiled
  | [] => (reg, .ok c)
  | .func type name params body :: ss =>
    match compileFuncdecl os reg c.nalloc type name params body with
    | .ok (reg', nalloc) => compileLine reg' { c with nalloc := nalloc } ss
    | .error e => (reg, .error e)
  | s :: ss =>
    match compileStmt os reg c ss.isEmpty s with
    | .ok c' => compileLine reg c' ss
    | .error e => (reg, .error e)

/-- The chunk of a compiled line. -/
def chunkFn (c : CComp) : NocFn where
  name := cstr "<line>"
  code := some c.code
  strings := c.strings
  nargs := 0
  nlocals := c.syms.length
  retType := .void
  defaults := []
  builtin := none
  variadic := false
  lastExpr := c.lastExpr

/-- `noc_compile`. -/
def nocCompile (stmts : List Stmt) : Registry × Except CompileError NocFn :=
  match compileLine os reg (CComp.start [] false 0) stmts with
  | (reg', .ok c) =>
    match emit1 os c opHalt with
    | .ok c => (reg', .ok (chunkFn c))
    | .error e => (reg', .error e)
  | (reg', .error e) => (reg', .error e)

end NoOsKernel.Noc
