import NoOsKernel.Lib.Scan
import NoOsKernel.Noc.Arena
import NoOsKernel.Noc.Token

/-!
# The parser

`noc_parse` of `kernel/noc/parser.c`, a scanner over an array of tokens. It reports the index of each
token it inspects, its writes to arrays of nodes (which may be `NULL`) and its errors; it asks the
arena for nodes and arrays. A function of the source that calls itself through the expressions or
statements inside of its own has these as arguments here. Names are never `NULL`, since a token that
has a text carries it.
-/

set_option autoImplicit false
set_option relaxedAutoImplicit false

namespace NoOsKernel.Noc

open Lib Scan

/-- What `perr` and `expect` report. -/
inductive ParseError where
  | astMemory
  | blockMemory
  | paramsMemory
  | stmtListMemory
  | expectedSemi
  | expectedLp
  | expectedRp
  | expectedLb
  | expectedExpression
  | callTarget
  | tooManyArguments
  | incNeedsVariable
  | assignTarget
  | unterminatedBlock
  | expectedParameterType
  | expectedParameterName
  | defaultLiteral
  | tooManyParameters
  | expectedNameAfterType
  | expectedVariableName
  | unexpectedEnd
  | tooManyStatements
  deriving DecidableEq

/-- The text of an error. -/
def ParseError.text : ParseError → String
  | .astMemory => "out of memory (AST)"
  | .blockMemory => "out of memory (block)"
  | .paramsMemory => "out of memory (params)"
  | .stmtListMemory => "out of memory (statement list)"
  | .expectedSemi => "expected ';'"
  | .expectedLp => "expected '('"
  | .expectedRp => "expected ')'"
  | .expectedLb => "expected '\x7b'"
  | .expectedExpression => "expected expression"
  | .callTarget => "call target must be a function name"
  | .tooManyArguments => "too many arguments"
  | .incNeedsVariable => "++/-- needs a variable"
  | .assignTarget => "assignment target must be a variable"
  | .unterminatedBlock => "unterminated block"
  | .expectedParameterType => "expected parameter type"
  | .expectedParameterName => "expected parameter name"
  | .defaultLiteral => "default arg must be a literal"
  | .tooManyParameters => "too many parameters"
  | .expectedNameAfterType => "expected name after type"
  | .expectedVariableName => "expected variable name"
  | .unexpectedEnd => "unexpected end of input"
  | .tooManyStatements => "too many statements"

/-- `NOC_MAX_NODES`. -/
def nocMaxNodes : ℕ := 1024

/-- The arrays the parser fills: of statements, on top and in a block, of arguments and of
parameters. -/
inductive NodeArray where
  | stmts
  | block
  | callArgs
  | params
  deriving DecidableEq

/-- The number of entries. -/
def NodeArray.capacity : NodeArray → ℕ
  | stmts => nocMaxNodes
  | block => nocMaxNodes
  | callArgs => nocMaxArgs
  | params => nocMaxArgs

/-- What the parser does: it inspects a token, writes an entry of an array, or reports an error.
`perr` keeps an error that is set already, `setErr` does not. -/
inductive ParseEvent where
  | tok (i : ℕ)
  | put (arr : NodeArray) (null : Bool) (k : ℕ)
  | perr (e : ParseError)
  | setErr (e : ParseError)
  deriving DecidableEq

/-- What the parser allocates: a node, the node of a default value, or an array. -/
inductive ParseRequest where
  | node
  | defaultNode
  | array (arr : NodeArray)
  deriving DecidableEq

/-- `sizeof(ast)`. -/
def astSize : ℕ := 80

/-- The sizes of the allocations: `arr` of `noc_parse` holds nodes, the others hold pointers. -/
def ParseRequest.size : ParseRequest → ℕ
  | node => astSize
  | defaultNode => astSize
  | array .stmts => astSize * nocMaxNodes
  | array .block => 8 * nocMaxNodes
  | array .callArgs => 8 * nocMaxArgs
  | array .params => 8 * nocMaxArgs

/-- A part of the parser. -/
abbrev Parse := Scan ParseRequest ParseEvent

variable (toks : ℕ → Tok)

/-- `cur` -/
def cur : Parse Tok := do
  let i ← pos
  report (.tok i)
  pure (toks i)

/-- `accept` -/
def accept (t : Tok) : Parse Bool := do
  let c ← cur toks
  if c = t then do
    advance 1
    pure true
  else pure false

/-- `expect`, whose callers all give up when it fails. -/
def expect (t : Tok) (what : ParseError) : Parse Unit := do
  let c ← cur toks
  if c = t then advance 1 else failWith (.perr what)

/-- `semi_ok` -/
def semiOk : Parse Unit := do
  let semi ← accept toks .semi
  if semi then pure ()
  else do
    let c ← cur toks
    if c = .eof then pure () else failWith (.perr .expectedSemi)

/-- `new_ast`, whose callers give up when it fails. -/
def newAst : Parse Unit := do
  let granted ← request .node
  if granted then pure () else failWith (.perr .astMemory)

/-- An array that is allocated when it is first needed and whose allocation is checked. -/
def checkedArray (arr : NodeArray) (memory : ParseError) (allocated : Bool) : Parse Unit :=
  if allocated then pure ()
  else do
    let granted ← request (.array arr)
    if granted then pure () else failWith (.perr memory)

/-! ### Expressions -/

/-- `e->kind == A_VAR`, with the name. -/
def Expr.varName : Expr → Option Name
  | .var x => some x
  | _ => none

/-- A leaf of a tree. The cursor moves even when there is no memory for it. -/
def leaf (e : Expr) : Parse Expr := do
  let granted ← request .node
  advance 1
  if granted then pure e else failWith (.perr .astMemory)

section Expressions

variable (expr : Parse Expr)

/-- `parse_primary`. Behind a parenthesis the closing one is expected even if there is no expression
in front of it. -/
def parsePrimary : Parse Expr := do
  let t ← cur toks
  match t with
  | .num v => leaf (.lit v)
  | .str s => leaf (.str s)
  | .kwTrue => leaf (.lit 1)
  | .kwFalse => leaf (.lit 0)
  | .ident x => leaf (.var x)
  | .lp => do
    advance 1
    let e ← attempt expr
    expect toks .rp .expectedRp
    match e with
    | some e => pure e
    | none => fail
  | _ => failWith (.perr .expectedExpression)

/-- The loop over the arguments of a call. Their array is allocated at the first one. -/
def argLoop : ℕ → Bool → List Expr → Parse (List Expr)
  | 0, _, _ => stuck
  | fuel + 1, allocated, args => do
    let arg ← expr
    if nocMaxArgs ≤ args.length then failWith (.perr .tooManyArguments)
    else do
      let allocated ← if allocated then pure true else request (.array .callArgs)
      report (.put .callArgs (!allocated) args.length)
      let more ← accept toks .comma
      if more then argLoop fuel allocated (args ++ [arg])
      else pure (args ++ [arg])

/-- The arguments of a call. -/
def parseArgs (fuel : ℕ) : Parse (List Expr) := do
  let c ← cur toks
  if c = .rp then pure [] else argLoop toks expr fuel false []

/-- The loop of `parse_postfix`. -/
def postfixLoop : ℕ → Expr → Parse Expr
  | 0, _ => stuck
  | fuel + 1, e => do
    let c ← cur toks
    if c = .lp then do
      advance 1
      newAst
      match e.varName with
      | some f => do
        let args ← parseArgs toks expr fuel
        expect toks .rp .expectedRp
        postfixLoop fuel (.call f args)
      | none => failWith (.perr .callTarget)
    else if c = .plusplus ∨ c = .minusminus then do
      advance 1
      match e.varName with
      | some x => do
        newAst
        postfixLoop fuel (.postinc x (decide (c = .plusplus)))
      | none => failWith (.perr .incNeedsVariable)
    else pure e

/-- `parse_postfix`. -/
def parsePostfix (fuel : ℕ) : Parse Expr := do
  let e ← parsePrimary toks expr
  postfixLoop toks expr fuel e

/-- The tokens `parse_unary` takes for operators. -/
def isUnary (t : Tok) : Bool :=
  t = .bang ∨ t = .minus ∨ t = .tilde ∨ t = .plusplus ∨ t = .minusminus

/-- The node of an operator in front of its operand. -/
def unaryNode (t : Tok) (a : Expr) : Parse Expr :=
  if t = .bang then pure (.un .not a)
  else if t = .minus then pure (.un .neg a)
  else if t = .tilde then pure (.un .bnot a)
  else
    match a.varName with
    | some x => pure (.preinc x (decide (t = .plusplus)))
    | none => failWith (.perr .incNeedsVariable)

/-- `parse_unary`, with the fuel of the loops in it. -/
def parseUnary (loops : ℕ) : ℕ → Parse Expr
  | 0 => stuck
  | fuel + 1 => do
    let t ← cur toks
    if isUnary t then do
      advance 1
      newAst
      let a ← parseUnary loops fuel
      unaryNode t a
    else parsePostfix toks expr loops

/-- The operators of one level, with what they make of their operands. -/
abbrev Operators := List (Tok × (Expr → Expr → Expr))

/-- The loop of `parse_binop`. -/
def binopLoop (higher : Parse Expr) (ops : Operators) : ℕ → Expr → Parse Expr
  | 0, _ => stuck
  | fuel + 1, lhs => do
    let t ← cur toks
    match ops.lookup t with
    | some node => do
      advance 1
      let rhs ← higher
      newAst
      binopLoop higher ops fuel (node lhs rhs)
    | none => pure lhs

/-- `parse_binop`. -/
def parseBinop (higher : Parse Expr) (ops : Operators) (fuel : ℕ) : Parse Expr := do
  let lhs ← higher
  binopLoop toks higher ops fuel lhs

variable (fuel : ℕ)

/-- `parse_multiplicative` -/
def parseMultiplicative : Parse Expr :=
  parseBinop toks (parseUnary toks expr fuel fuel)
    [(.star, .bin .mul), (.slash, .bin .div), (.pct, .bin .mod)] fuel

/-- `parse_additive` -/
def parseAdditive : Parse Expr :=
  parseBinop toks (parseMultiplicative toks expr fuel) [(.plus, .bin .add), (.minus, .bin .sub)] fuel

/-- `parse_shift` -/
def parseShift : Parse Expr :=
  parseBinop toks (parseAdditive toks expr fuel) [(.shl, .bin .shl), (.shr, .bin .shr)] fuel

/-- `parse_relational` -/
def parseRelational : Parse Expr :=
  parseBinop toks (parseShift toks expr fuel)
    [(.lt, .bin .lt), (.le, .bin .le), (.gt, .bin .gt), (.ge, .bin .ge)] fuel

/-- `parse_equality` -/
def parseEquality : Parse Expr :=
  parseBinop toks (parseRelational toks expr fuel) [(.eqeq, .bin .eq), (.neq, .bin .ne)] fuel

/-- `parse_band` -/
def parseBand : Parse Expr :=
  parseBinop toks (parseEquality toks expr fuel) [(.amp, .bin .band)] fuel

/-- `parse_bxor` -/
def parseBxor : Parse Expr :=
  parseBinop toks (parseBand toks expr fuel) [(.caret, .bin .bxor)] fuel

/-- `parse_bor` -/
def parseBor : Parse Expr :=
  parseBinop toks (parseBxor toks expr fuel) [(.pipe, .bin .bor)] fuel

/-- `parse_andand` -/
def parseAndand : Parse Expr :=
  parseBinop toks (parseBor toks expr fuel) [(.andand, .logic true)] fuel

/-- `parse_oror` -/
def parseOror : Parse Expr :=
  parseBinop toks (parseAndand toks expr fuel) [(.oror, .logic false)] fuel

/-- The operators of `parse_assign`. -/
def assignOps : List (Tok × AssignOp) :=
  [(.eq, .assign), (.pluseq, .add), (.minuseq, .sub), (.stareq, .mul), (.slasheq, .div)]

/-- `parse_assign`, with the fuel of the loops in it. -/
def parseAssign (loops : ℕ) : ℕ → Parse Expr
  | 0 => stuck
  | fuel + 1 => do
    let lhs ← parseOror toks expr loops
    let t ← cur toks
    match assignOps.lookup t with
    | some op =>
      match lhs.varName with
      | some x => do
        advance 1
        let rhs ← parseAssign loops fuel
        newAst
        pure (.assign op x rhs)
      | none => failWith (.perr .assignTarget)
    | none => pure lhs

end Expressions

/-- `parse_expr`. -/
def parseExpr : ℕ → Parse Expr
  | 0 => stuck
  | fuel + 1 => parseAssign toks (parseExpr fuel) (fuel + 1) (fuel + 1)

/-! ### Statements -/

section Statements

variable (expr : Parse Expr) (stmt : Parse Stmt)

/-- The loop of `parse_block`. The array of the block is allocated at the first statement. -/
def blockLoop : ℕ → List Stmt → Parse (List Stmt)
  | 0, _ => stuck
  | fuel + 1, body => do
    let c ← cur toks
    if c = .rb then do
      advance 1
      pure body
    else if c = .eof then failWith (.perr .unterminatedBlock)
    else do
      let s ← stmt
      checkedArray .block .blockMemory (!body.isEmpty)
      report (.put .block false body.length)
      blockLoop fuel (body ++ [s])

/-- `parse_block`. -/
def parseBlock (fuel : ℕ) : Parse (List Stmt) := do
  newAst
  expect toks .lb .expectedLb
  blockLoop toks stmt fuel []

/-- The node of a default value. When there is no memory for it, parsing goes on without it. -/
def defaultLeaf (v : U64) : Parse (Option U64) := do
  let granted ← request .defaultNode
  if granted then do
    advance 1
    pure (some v)
  else do
    report (.perr .astMemory)
    advance 1
    pure none

/-- The default value of a parameter. -/
def parseDefault : Parse (Option U64) := do
  let t ← cur toks
  match t with
  | .num v => defaultLeaf v
  | .kwTrue => defaultLeaf 1
  | .kwFalse => defaultLeaf 0
  | _ => failWith (.perr .defaultLiteral)

/-- `if (accept(p, T_EQ))`, in front of a default value. -/
def optionalDefault : Parse (Option U64) := do
  let eq ← accept toks .eq
  if eq then parseDefault toks else pure none

theorem length_concat_le {ps : List Param} {n : ℕ} (h : ps.length + 1 < n) (p : Param) :
    (ps ++ [p]).length ≤ n := by
  rw [List.length_append, List.length_singleton]
  exact h.le

/-- The loop of `parse_params`. The array is allocated at the first parameter. -/
def paramLoop : ℕ → List Param → Parse Params
  | 0, _ => stuck
  | fuel + 1, ps => do
    let t ← cur toks
    match t with
    | .type type => do
      advance 1
      let c ← cur toks
      match c with
      | .ident name => do
        newAst
        advance 1
        let default ← optionalDefault toks
        checkedArray .params .paramsMemory (!ps.isEmpty)
        report (.put .params false ps.length)
        if hroom : ps.length + 1 < nocMaxArgs then do
          let more ← accept toks .comma
          if more then paramLoop fuel (ps ++ [⟨name, type, default⟩])
          else pure ⟨ps ++ [⟨name, type, default⟩], length_concat_le hroom _⟩
        else failWith (.perr .tooManyParameters)
      | _ => failWith (.perr .expectedParameterName)
    | _ => failWith (.perr .expectedParameterType)

/-- `parse_params`. -/
def parseParams (fuel : ℕ) : Parse Params := do
  expect toks .lp .expectedLp
  let closed ← accept toks .rp
  if closed then pure ⟨[], Nat.zero_le _⟩
  else do
    let ps ← paramLoop toks fuel []
    expect toks .rp .expectedRp
    pure ps

/-- `if (accept(p, T_EQ))`, in front of an initial value. -/
def optionalInit : Parse (Option Expr) := do
  let eq ← accept toks .eq
  if eq then do
    let e ← expr
    pure (some e)
  else pure none

/-- `if (!check(p, stop))`, in front of an expression. -/
def optionalExpr (stop : Tok) : Parse (Option Expr) := do
  let c ← cur toks
  if c = stop then pure none
  else do
    let e ← expr
    pure (some e)

/-- A declaration that begins with a type. -/
def parseDeclaration (fuel : ℕ) (type : NType) : Parse Stmt := do
  advance 1
  let t ← cur toks
  match t with
  | .ident name => do
    advance 1
    let c ← cur toks
    if c = .lp then do
      newAst
      let params ← parseParams toks fuel
      let body ← parseBlock toks stmt fuel
      pure (.func type name params body)
    else do
      newAst
      let init ← optionalInit toks expr
      semiOk toks
      pure (.decl name type init)
  | _ => failWith (.perr .expectedNameAfterType)

/-- `case T_IF` -/
def parseIf : Parse Stmt := do
  advance 1
  newAst
  expect toks .lp .expectedLp
  let c ← expr
  expect toks .rp .expectedRp
  let t ← stmt
  let otherwise ← accept toks .kwElse
  if otherwise then do
    let e ← stmt
    pure (.ifElse c t e)
  else pure (.ifThen c t)

/-- `case T_WHILE` -/
def parseWhile : Parse Stmt := do
  advance 1
  newAst
  expect toks .lp .expectedLp
  let c ← expr
  expect toks .rp .expectedRp
  let body ← stmt
  pure (.while c body)

/-- The first clause of a `for`, with its semicolon. -/
def parseForInit : Parse ForInit := do
  let t ← cur toks
  match t with
  | .semi => do
    advance 1
    pure .none
  | .type type => do
    advance 1
    let c ← cur toks
    match c with
    | .ident name => do
      newAst
      advance 1
      let init ← optionalInit toks expr
      expect toks .semi .expectedSemi
      pure (.decl name type init)
    | _ => failWith (.perr .expectedVariableName)
  | _ => do
    let e ← expr
    expect toks .semi .expectedSemi
    pure (.expr e)

/-- `case T_FOR` -/
def parseFor : Parse Stmt := do
  advance 1
  newAst
  expect toks .lp .expectedLp
  let init ← parseForInit toks expr
  let c ← optionalExpr toks expr .semi
  expect toks .semi .expectedSemi
  let post ← optionalExpr toks expr .rp
  expect toks .rp .expectedRp
  let body ← stmt
  pure (.for init c post body)

/-- `case T_RETURN` -/
def parseReturn : Parse Stmt := do
  advance 1
  newAst
  let e ← optionalExpr toks expr .semi
  semiOk toks
  pure (.ret e)

/-- An expression as a statement. -/
def parseStmtExpr : Parse Stmt := do
  newAst
  let e ← expr
  semiOk toks
  pure (.expr e)

end Statements

/-- `parse_stmt`. -/
def parseStmt : ℕ → Parse Stmt
  | 0 => stuck
  | fuel + 1 => do
    let t ← cur toks
    match t with
    | .type type => parseDeclaration toks (parseExpr toks (fuel + 1)) (parseStmt fuel) (fuel + 1) type
    | .lb => do
      let body ← parseBlock toks (parseStmt fuel) (fuel + 1)
      pure (.block body)
    | .kwIf => parseIf toks (parseExpr toks (fuel + 1)) (parseStmt fuel)
    | .kwWhile => parseWhile toks (parseExpr toks (fuel + 1)) (parseStmt fuel)
    | .kwFor => parseFor toks (parseExpr toks (fuel + 1)) (parseStmt fuel)
    | .kwReturn => parseReturn toks (parseExpr toks (fuel + 1))
    | .eof => failWith (.perr .unexpectedEnd)
    | _ => parseStmtExpr toks (parseExpr toks (fuel + 1))

/-- The loop of `noc_parse`. -/
def stmtLoop (stmt : Parse Stmt) : ℕ → List Stmt → Parse (List Stmt)
  | 0, _ => stuck
  | fuel + 1, stmts => do
    let c ← cur toks
    if c = .eof then pure stmts
    else do
      let s ← stmt
      report (.put .stmts false stmts.length)
      if nocMaxNodes ≤ stmts.length + 1 then failWith (.setErr .tooManyStatements)
      else stmtLoop stmt fuel (stmts ++ [s])

/-- `noc_parse`. -/
def nocParse (fuel : ℕ) : Parse (List Stmt) := do
  let granted ← request (.array .stmts)
  if granted then stmtLoop toks (parseStmt toks fuel) fuel []
  else failWith (.setErr .stmtListMemory)

/-- A call of `noc_parse` with an arena. -/
def runParser (fuel : ℕ) (a : Arena) : Transcript Arena ParseRequest ParseEvent (End (List Stmt) × ℕ) :=
  (nocParse toks fuel 0).run (Arena.answer ParseRequest.size) a

end NoOsKernel.Noc
