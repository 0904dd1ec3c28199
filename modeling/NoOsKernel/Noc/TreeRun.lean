import NoOsKernel.Noc.Arity
import NoOsKernel.Noc.Semantics

/-!
# Programs run as trees

What a line does, said over its trees and without code: a function has a list of what is left to do
and the values it has found so far, newest first. A tree is first replaced by its parts (`parts`),
and what has no parts acts on the variables and the values (`Acts`). All of the language is here,
functions and builtins included. Values stay as long as the machine keeps them: `&&`, `||` and the
prefix increments leave one too many.

What a name in a call means is settled twice. The defaults of arguments left out are those of the
function known when the line was read; what is called is the function of that name in the table when
the call is made, by the declaration it was made from.
-/

set_option autoImplicit false
set_option relaxedAutoImplicit false

namespace NoOsKernel.Noc

open Lib

/-! ### What is left to do -/

/-- A tree with the functions known where it was read, or what is done with the values that its parts
have left. -/
inductive Todo where
  | expr (known : Registry) (e : Expr)
  | stmt (known : Registry) (syms : List (Name × NType)) (s : Stmt)
  | loop (known : Registry) (syms : List (Name × NType)) (c post : Option Expr) (body : Stmt)
  | bin (op : BinOp)
  | un (op : UnOp)
  | dup
  | drop
  | store (x : Name)
  | call (f : Name) (count : ℕ)
  | branch (yes no : List Todo)
  | ret

/-- What a call sees of a function: everything but its code. -/
def NocFn.header (f : NocFn) : NocFn := { f with code := none, strings := [], nlocals := 0 }

/-- The functions of a table without their code. -/
def headers (reg : Registry) : Registry := reg.map NocFn.header

/-- The defaults for the arguments that a call leaves out. -/
def defaultsOf (known : Registry) (f : Name) (nargs : ℕ) : List U64 :=
  match nocLookup known f with
  | none => []
  | some callee => (callDefaults callee f nargs).toOption.getD []

section Parts

variable (known : Registry)

/-- What `&&` and `||` leave behind, whatever their operands are. -/
def logicTail (isAnd : Bool) : List Todo :=
  [.expr known (.lit (if isAnd then 0 else 1)), .expr known (.lit (if isAnd then 1 else 0))]

/-- The second operand of `&&` is left out at zero, that of `||` at anything else. -/
def logicBranch (isAnd : Bool) (more done : List Todo) : Todo :=
  if isAnd then .branch more done else .branch done more

/-- The parts of an expression, in the order in which they are evaluated. -/
def exprParts : Expr → Option (List Todo)
  | .lit _ => none
  | .str _ => none
  | .var _ => none
  | .call f args =>
    let defaults := defaultsOf known f args.length
    some (args.map (.expr known) ++ defaults.map (fun v ↦ .expr known (.lit v)) ++
      [.call f (args.length + defaults.length)])
  | .logic isAnd a b =>
    let tail := logicTail known isAnd
    some [.expr known a, logicBranch isAnd [.expr known b, .branch tail tail] tail]
  | .bin op a b => some [.expr known a, .expr known b, .bin op]
  | .un op a => some [.expr known a, .un op]
  | .preinc x plus => some [.expr known (.var x), .expr known (.var x),
    .expr known (.lit (incStep plus)), .bin .add, .dup, .store x]
  | .postinc x plus => some [.expr known (.var x), .dup, .expr known (.lit (incStep plus)),
    .bin .add, .store x]
  | .assign op x a =>
    match op.binOp with
    | none => some [.expr known a, .dup, .store x]
    | some bin => some [.expr known (.var x), .expr known a, .bin bin, .dup, .store x]

/-- An expression whose value is dropped. -/
def dropParts (e : Expr) : List Todo := [.expr known e, .drop]

/-- A declaration. -/
def declParts (x : Name) (init : Option Expr) : List Todo :=
  match init with
  | none => []
  | some e => [.expr known e, .store x]

/-- The first clause of a `for`. -/
def initParts (init : ForInit) : List Todo :=
  match init with
  | .none => []
  | .decl x _ e => declParts known x e
  | .expr e => dropParts known e

/-- The last clause of a `for`. -/
def postParts (post : Option Expr) : List Todo :=
  match post with
  | none => []
  | some e => dropParts known e

/-- The statements of a block. -/
def blockParts : List (Name × NType) → List Stmt → List Todo
  | _, [] => []
  | syms, s :: ss => .stmt known syms s :: blockParts (syms ++ declsOf s) ss

/-- The parts of a statement that begins with the variables `syms`. -/
def stmtParts (syms : List (Name × NType)) : Stmt → List Todo
  | .expr e => dropParts known (stmtExpr known syms e)
  | .decl x _ init => declParts known x init
  | .block body => blockParts known syms body
  | .ifThen c t => [.expr known c, .branch [.stmt known syms t] []]
  | .ifElse c t e => [.expr known c, .branch [.stmt known syms t]
    [.stmt known (syms ++ declsOf t) e]]
  | .while c body => [.loop known syms (some c) none body]
  | .for init c post body => initParts known init ++ [.loop known (syms ++ init.decls) c post body]
  | .ret e => [.expr known (e.getD (.lit 0)), .ret]
  | .func _ _ _ _ => []

/-- A round of a loop. -/
def loopParts (syms : List (Name × NType)) (c post : Option Expr) (body : Stmt) : List Todo :=
  let round := .stmt known syms body :: (postParts known post ++ [.loop known syms c post body])
  match c with
  | none => round
  | some e => [.expr known e, .branch round []]

end Parts

/-- What something is replaced by before it is done. -/
def Todo.parts : Todo → Option (List Todo)
  | .expr known e => exprParts known e
  | .stmt known syms s => some (stmtParts known syms s)
  | .loop known syms c post body => some (loopParts known syms c post body)
  | _ => none

/-- What may come from outside in a run: the answers of the builtins, by index and arguments, the
addresses of string constants, and the lines that are compiled meanwhile. -/
structure Outside where
  answers : ℕ → List U64 → U64 → Prop
  addresses : Name → U64 → Prop
  lines : List Stmt → Prop
  exists_address : ∀ s, ∃ v, addresses s v

theorem exists_word (_ : Name) : ∃ _ : U64, True := ⟨0, trivial⟩

/-- Nothing is ruled out. -/
def Outside.any : Outside := ⟨fun _ _ _ ↦ True, fun _ _ ↦ True, fun _ ↦ True, exists_word⟩

/-- A function that has been called, or the line, with room for `slots` variables. -/
structure TreeFrame where
  todo : List Todo
  vars : Vars
  values : List U64
  slots : ℕ

/-- The variables of a function that is called: the arguments in the order of the slots, then
zeros. -/
def argVars (syms : List (Name × NType)) (args : List U64) : Vars := fun x ↦
  match resolveVar syms x with
  | some k => args.getD k 0
  | none => 0

/-- The parameters as variables. -/
def paramSyms (params : Params) : List (Name × NType) := params.val.map fun p ↦ (p.name, p.type)

/-- All variables of a function, in the order of their slots. -/
def bodySyms (params : Params) (body : List Stmt) : List (Name × NType) :=
  paramSyms params ++ declsOfBlock body

/-- A declared function that is called. -/
def bodyFrame (known : Registry) (params : Params) (body : List Stmt) (args : List U64) :
    TreeFrame where
  todo := [.stmt known (paramSyms params) (.block body), .expr known (.lit 0), .ret]
  vars := argVars (bodySyms params body) args
  values := []
  slots := (bodySyms params body).length

/-- What has no parts acts on the variables and the values. -/
inductive Acts (o : Outside) (table : Registry) : Todo → Vars → List U64 → Vars → List U64 → Prop
  | lit {known : Registry} {v : U64} {E : Vars} {vs : List U64} :
    Acts o table (.expr known (.lit v)) E vs E (v :: vs)
  | str {known : Registry} {s : Name} {v : U64} {E : Vars} {vs : List U64} :
    o.addresses s v → Acts o table (.expr known (.str s)) E vs E (v :: vs)
  | var {known : Registry} {x : Name} {E : Vars} {vs : List U64} :
    Acts o table (.expr known (.var x)) E vs E (E x :: vs)
  | dup {v : U64} {E : Vars} {vs : List U64} : Acts o table .dup E (v :: vs) E (v :: v :: vs)
  | drop {v : U64} {E : Vars} {vs : List U64} : Acts o table .drop E (v :: vs) E vs
  | store {x : Name} {v : U64} {E : Vars} {vs : List U64} :
    Acts o table (.store x) E (v :: vs) (Function.update E x v) vs
  | bin {op : BinOp} {a b r : U64} {E : Vars} {vs : List U64} :
    evalBin true op a b = .ok r → Acts o table (.bin op) E (b :: a :: vs) E (r :: vs)
  | un {op : UnOp} {a : U64} {E : Vars} {vs : List U64} :
    Acts o table (.un op) E (a :: vs) E (op.value a :: vs)
  | builtin {f : Name} {callee : NocFn} {index : ℕ} {args : List U64} {v : U64} {E : Vars}
    {vs : List U64} : nocLookup table f = some callee → callee.builtin = some index →
    o.answers index args v → Acts o table (.call f args.length) E (args.reverse ++ vs) E (v :: vs)

/-- A step of a run, with the table of functions and the functions that are being executed, the
innermost one first. -/
inductive TreeStep (o : Outside) : Registry × List TreeFrame → Registry × List TreeFrame → Prop
  | parts {table : Registry} {t : Todo} {ts more : List Todo} {E : Vars} {vs : List U64} {n : ℕ}
    {outer : List TreeFrame} (h : t.parts = some ts) :
    TreeStep o (table, ⟨t :: more, E, vs, n⟩ :: outer) (table, ⟨ts ++ more, E, vs, n⟩ :: outer)
  | act {table : Registry} {t : Todo} {more : List Todo} {E E' : Vars} {vs vs' : List U64} {n : ℕ}
    {outer : List TreeFrame} (h : Acts o table t E vs E' vs') :
    TreeStep o (table, ⟨t :: more, E, vs, n⟩ :: outer) (table, ⟨more, E', vs', n⟩ :: outer)
  | branch {table : Registry} {yes no more : List Todo} {E : Vars} {v : U64} {vs : List U64} {n : ℕ}
    {outer : List TreeFrame} : TreeStep o (table, ⟨.branch yes no :: more, E, v :: vs, n⟩ :: outer)
      (table, ⟨(if v = 0 then no else yes) ++ more, E, vs, n⟩ :: outer)
  | enter {table known : Registry} {f name : Name} {callee : NocFn} {os : NocOs} {type : NType}
    {params : Params} {body : List Stmt} {nalloc : ℕ} {args : List U64} {more : List Todo} {E : Vars}
    {vs : List U64} {n : ℕ} {outer : List TreeFrame} (hcallee : nocLookup table f = some callee)
    (hsource : (Source.decl os known type name params body nalloc).Makes callee)
    (hargs : args.length ≤ (bodySyms params body).length) :
    TreeStep o (table, ⟨.call f args.length :: more, E, args.reverse ++ vs, n⟩ :: outer)
      (table, bodyFrame (headers known) params body args :: ⟨more, E, vs, n⟩ :: outer)
  | ret {table : Registry} {more more' : List Todo} {E E' : Vars} {v : U64} {vs vs' : List U64}
    {n n' : ℕ} {outer : List TreeFrame} :
    TreeStep o (table, ⟨.ret :: more, E, v :: vs, n⟩ :: ⟨more', E', vs', n'⟩ :: outer)
      (table, ⟨more', E', v :: vs', n'⟩ :: outer)
  | line {table : Registry} {frames : List TreeFrame} (os : NocOs) {stmts : List Stmt}
    (h : o.lines stmts) : TreeStep o (table, frames) ((nocCompile os table stmts).1, frames)

/-! ### Runs -/

/-- The variables and values of all functions. -/
def treeSize (frames : List TreeFrame) : ℕ := (frames.map fun g ↦ g.slots + g.values.length).sum

/-- The stack of the machine has room for them, and its array for the calls. -/
def HasRoomFor (frames : List TreeFrame) : Prop :=
  treeSize frames ≤ nocStackSize ∧ frames.length ≤ nocMaxFrames

/-- A step that there is room for. -/
def RoomStep (o : Outside) (x y : Registry × List TreeFrame) : Prop := TreeStep o x y ∧ HasRoomFor y.2

/-- Some of these steps. -/
def TreeReach (o : Outside) : Registry × List TreeFrame → Registry × List TreeFrame → Prop :=
  Relation.ReflTransGen (RoomStep o)

end NoOsKernel.Noc
