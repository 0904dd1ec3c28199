import Mathlib.Logic.Function.Basic
import NoOsKernel.Noc.Layout

/-!
# What a line means

A tree-walking semantics for the lines that use integers only: declarations, assignments, the strict
operators, `if`, `while` and `for`. It is written down for its own sake and not read off the
compiler or the machine. Words have 64 bits and variables start at zero; `/` and `%` are those of
the signed integers and abort the line when the divisor is zero.

One quotient of signed integers is no signed word, that of the least by `-1`. The semantics wraps it
around like every other result. With `strict` set it aborts there instead, which is how the lines
that never come to this division are told apart.
-/

set_option autoImplicit false
set_option relaxedAutoImplicit false

namespace NoOsKernel.Noc

open Lib

/-! ### Lines of integers -/

/-- A type a variable of such a line can have. -/
abbrev VarType := { type : NType // type ≠ .void }

/-- Expressions over integers. -/
inductive IntExpr where
  | lit (v : U64)
  | var (x : Name)
  | bin (op : BinOp) (a b : IntExpr)
  | un (op : UnOp) (a : IntExpr)
  | postinc (x : Name) (plus : Bool)
  | assign (op : AssignOp) (x : Name) (a : IntExpr)

/-- The first clause of a `for`. -/
inductive IntInit where
  | none
  | decl (x : Name) (type : VarType) (init : Option IntExpr)
  | expr (e : IntExpr)

/-- Statements over integers. -/
inductive IntStmt where
  | expr (e : IntExpr)
  | decl (x : Name) (type : VarType) (init : Option IntExpr)
  | block (body : List IntStmt)
  | ifThen (c : IntExpr) (t : IntStmt)
  | ifElse (c : IntExpr) (t e : IntStmt)
  | while (c : IntExpr) (body : IntStmt)
  | for (init : IntInit) (c post : Option IntExpr) (body : IntStmt)

/-- The tree of an expression. -/
def IntExpr.toExpr : IntExpr → Expr
  | .lit v => .lit v
  | .var x => .var x
  | .bin op a b => .bin op a.toExpr b.toExpr
  | .un op a => .un op a.toExpr
  | .postinc x plus => .postinc x plus
  | .assign op x a => .assign op x a.toExpr

/-- The tree of a first clause. -/
def IntInit.toInit : IntInit → ForInit
  | .none => .none
  | .decl x type init => .decl x type.val (init.map IntExpr.toExpr)
  | .expr e => .expr e.toExpr

mutual

/-- The tree of a statement. -/
def IntStmt.toStmt : IntStmt → Stmt
  | .expr e => .expr e.toExpr
  | .decl x type init => .decl x type.val (init.map IntExpr.toExpr)
  | .block body => .block (toStmts body)
  | .ifThen c t => .ifThen c.toExpr t.toStmt
  | .ifElse c t e => .ifElse c.toExpr t.toStmt e.toStmt
  | .while c body => .while c.toExpr body.toStmt
  | .for init c post body =>
    .for init.toInit (c.map IntExpr.toExpr) (post.map IntExpr.toExpr) body.toStmt

/-- The trees of some statements. -/
def toStmts : List IntStmt → List Stmt
  | [] => []
  | s :: ss => s.toStmt :: toStmts ss

end

/-! ### Scopes -/

/-- The variables of an expression are among `xs`. -/
def IntExpr.Scoped (xs : List Name) : IntExpr → Prop
  | .lit _ => True
  | .var x => x ∈ xs
  | .bin _ a b => a.Scoped xs ∧ b.Scoped xs
  | .un _ a => a.Scoped xs
  | .postinc x _ => x ∈ xs
  | .assign _ x a => x ∈ xs ∧ a.Scoped xs

/-- The variables of an expression that may be left out are among `xs`. -/
def ScopedOpt (xs : List Name) : Option IntExpr → Prop
  | none => True
  | some e => e.Scoped xs

/-- The names a first clause declares. -/
def IntInit.names : IntInit → List Name
  | .decl x _ _ => [x]
  | _ => []

/-- The variables of a first clause are among `xs` or declared by it. -/
def IntInit.Scoped (xs : List Name) : IntInit → Prop
  | .none => True
  | .decl x _ init => ScopedOpt (xs ++ [x]) init
  | .expr e => e.Scoped xs

mutual

/-- The names a statement declares; they stay in scope until the end of the line. -/
def IntStmt.names : IntStmt → List Name
  | .expr _ => []
  | .decl x _ _ => [x]
  | .block body => namesOf body
  | .ifThen _ t => t.names
  | .ifElse _ t e => t.names ++ e.names
  | .while _ body => body.names
  | .for init _ _ body => init.names ++ body.names

/-- The names some statements declare. -/
def namesOf : List IntStmt → List Name
  | [] => []
  | s :: ss => s.names ++ namesOf ss

end

mutual

/-- The variables of a statement are among `xs` or declared before their use. -/
def IntStmt.Scoped : List Name → IntStmt → Prop
  | xs, .expr e => e.Scoped xs
  | xs, .decl x _ init => ScopedOpt (xs ++ [x]) init
  | xs, .block body => ScopedAll xs body
  | xs, .ifThen c t => c.Scoped xs ∧ t.Scoped xs
  | xs, .ifElse c t e => c.Scoped xs ∧ t.Scoped xs ∧ e.Scoped (xs ++ t.names)
  | xs, .while c body => c.Scoped xs ∧ body.Scoped xs
  | xs, .for init c post body => init.Scoped xs ∧ ScopedOpt (xs ++ init.names) c ∧
    body.Scoped (xs ++ init.names) ∧ ScopedOpt (xs ++ init.names ++ body.names) post

/-- The variables of some statements are among `xs` or declared before their use. -/
def ScopedAll : List Name → List IntStmt → Prop
  | _, [] => True
  | xs, s :: ss => s.Scoped xs ∧ ScopedAll (xs ++ s.names) ss

end

/-! ### Values -/

/-- Why a line is aborted. -/
inductive Abort where
  | divisionByZero
  | quotientOverflow
  deriving DecidableEq

/-- The values of the variables. -/
abbrev Vars := Name → U64

/-- The word of a truth value. -/
def wordOf (p : Prop) [Decidable p] : U64 := if p then 1 else 0

/-- The value of a strict operator. -/
def BinOp.value (op : BinOp) (a b : U64) : U64 :=
  match op with
  | .add => a + b
  | .sub => a - b
  | .mul => a * b
  | .div => BitVec.ofInt 64 (a.toInt.tdiv b.toInt)
  | .mod => BitVec.ofInt 64 (a.toInt.tmod b.toInt)
  | .eq => wordOf (a = b)
  | .ne => wordOf (a ≠ b)
  | .lt => wordOf (a.toInt < b.toInt)
  | .le => wordOf (a.toInt ≤ b.toInt)
  | .gt => wordOf (a.toInt > b.toInt)
  | .ge => wordOf (a.toInt ≥ b.toInt)
  | .band => a &&& b
  | .bor => a ||| b
  | .bxor => a ^^^ b
  | .shl => a <<< (b.toNat % 64)
  | .shr => a >>> (b.toNat % 64)

/-- The operators that divide. -/
def BinOp.divides : BinOp → Bool
  | .div => true
  | .mod => true
  | _ => false

/-- The operator applied to two words. -/
def evalBin (strict : Bool) (op : BinOp) (a b : U64) : Except Abort U64 :=
  if op.divides ∧ b.toInt = 0 then .error .divisionByZero
  else if strict ∧ op.divides ∧ a.toInt = -2 ^ 63 ∧ b.toInt = -1 then .error .quotientOverflow
  else .ok (op.value a b)

/-- The value of a unary operator. -/
def UnOp.value (op : UnOp) (a : U64) : U64 :=
  match op with
  | .neg => -a
  | .not => wordOf (a = 0)
  | .bnot => ~~~a

/-- The step of a postfix `++` or `--`. -/
def postStep (plus : Bool) (v : U64) : U64 := if plus then v + 1 else v - 1

/-- The value of an expression and the variables after it. -/
def IntExpr.eval (strict : Bool) : IntExpr → Vars → Except Abort (U64 × Vars)
  | .lit v, E => .ok (v, E)
  | .var x, E => .ok (E x, E)
  | .bin op a b, E => do
    let (v, E) ← a.eval strict E
    let (w, E) ← b.eval strict E
    let r ← evalBin strict op v w
    return (r, E)
  | .un op a, E => do
    let (v, E) ← a.eval strict E
    return (op.value v, E)
  | .postinc x plus, E => .ok (E x, Function.update E x (postStep plus (E x)))
  | .assign op x a, E =>
    match op.binOp with
    | none => do
      let (v, E) ← a.eval strict E
      return (v, Function.update E x v)
    | some compound => do
      let old := E x
      let (v, E) ← a.eval strict E
      let r ← evalBin strict compound old v
      return (r, Function.update E x r)

/-! ### Runs -/

/-- A result of a statement: `none` while it has not ended, else the abort or what it leaves. -/
abbrev Ran (α : Type) := Option (Except Abort α)

/-- One part after another. -/
def ranThen {α β : Type} (r : Ran α) (next : α → Ran β) : Ran β :=
  match r with
  | none => none
  | some (.error a) => some (.error a)
  | some (.ok v) => next v

/-- A part that always ends, then another. -/
def evalThen {α β : Type} (r : Except Abort α) (next : α → Ran β) : Ran β := ranThen (some r) next

/-- A declaration; without a first value it changes nothing. -/
def execDecl (strict : Bool) (x : Name) (init : Option IntExpr) (E : Vars) : Except Abort Vars :=
  match init with
  | none => .ok E
  | some e => do
    let (v, E) ← e.eval strict E
    return Function.update E x v

/-- An expression for its effect. -/
def execExpr (strict : Bool) (e : IntExpr) (E : Vars) : Except Abort Vars := do
  let (_, E) ← e.eval strict E
  return E

/-- The first clause of a `for`. -/
def execInit (strict : Bool) (init : IntInit) (E : Vars) : Except Abort Vars :=
  match init with
  | .none => .ok E
  | .decl x _ e => execDecl strict x e E
  | .expr e => execExpr strict e E

/-- A condition: whether the body is next; without one it always is. -/
def evalCond (strict : Bool) (c : Option IntExpr) (E : Vars) : Except Abort (Bool × Vars) :=
  match c with
  | none => .ok (true, E)
  | some e => do
    let (v, E) ← e.eval strict E
    return (decide (v ≠ 0), E)

/-- The last clause of a `for`. -/
def execPost (strict : Bool) (post : Option IntExpr) (E : Vars) : Except Abort Vars :=
  match post with
  | none => .ok E
  | some e => execExpr strict e E

/-- Statements one after the other, each run by `run`. -/
def execAll (run : IntStmt → Vars → Ran Vars) : List IntStmt → Vars → Ran Vars
  | [], E => some (.ok E)
  | s :: ss, E => ranThen (run s E) (execAll run ss)

/-- A statement, with at most `n` levels of nesting and rounds of loops. -/
def execStmt (strict : Bool) : ℕ → IntStmt → Vars → Ran Vars
  | 0, _, _ => none
  | _ + 1, .expr e, E => some (execExpr strict e E)
  | _ + 1, .decl x _ init, E => some (execDecl strict x init E)
  | n + 1, .block body, E => execAll (execStmt strict n) body E
  | n + 1, .ifThen c t, E =>
    evalThen (evalCond strict (some c) E) fun (go, E) ↦
      if go then execStmt strict n t E else some (.ok E)
  | n + 1, .ifElse c t e, E =>
    evalThen (evalCond strict (some c) E) fun (go, E) ↦
      if go then execStmt strict n t E else execStmt strict n e E
  | n + 1, .while c body, E =>
    evalThen (evalCond strict (some c) E) fun (go, E) ↦
      if go then ranThen (execStmt strict n body E) (execStmt strict n (.while c body))
      else some (.ok E)
  | n + 1, .for init c post body, E =>
    evalThen (execInit strict init E) fun E ↦
      evalThen (evalCond strict c E) fun (go, E) ↦
        if go then
          ranThen (execStmt strict n body E) fun E ↦
            evalThen (execPost strict post E) (execStmt strict n (.for .none c post body))
        else some (.ok E)

/-- A line: the variables it leaves and, when it ends with an expression, the value of that. -/
def execLine (strict : Bool) (n : ℕ) : List IntStmt → Vars → Ran (Vars × Option U64)
  | [], E => some (.ok (E, none))
  | [.expr e], E => some ((e.eval strict E).map fun (v, E) ↦ (E, some v))
  | s :: ss, E => ranThen (execStmt strict n s E) (execLine strict n ss)

/-- The variables before a line. -/
def zeroVars : Vars := fun _ ↦ 0

/-! ### Strict runs -/

/-- No `/` or `%` that the line comes to divides the least integer by `-1`. -/
def NoQuotientOverflow (stmts : List IntStmt) : Prop :=
  ∀ n, execLine true n stmts zeroVars ≠ some (.error .quotientOverflow)

/-- A strict result is the overflow or that of the semantics. -/
def Agrees {α : Type} (strict plain : Except Abort α) : Prop :=
  strict = .error .quotientOverflow ∨ strict = plain

/-- A strict run is at the overflow or where the semantics is. -/
def RanAgrees {α : Type} (strict plain : Ran α) : Prop :=
  strict = some (.error .quotientOverflow) ∨ strict = plain

section Strict

variable {α β : Type}

theorem Agrees.bind {r r' : Except Abort α} {k k' : α → Except Abort β} (h : Agrees r r')
    (hk : ∀ a, Agrees (k a) (k' a)) : Agrees (r >>= k) (r' >>= k') := by
  rcases h with rfl | rfl
  · exact Or.inl rfl
  · cases r with
    | error a => exact Or.inr rfl
    | ok a => exact hk a

theorem RanAgrees.andThen {r r' : Ran α} {k k' : α → Ran β} (h : RanAgrees r r')
    (hk : ∀ a, RanAgrees (k a) (k' a)) : RanAgrees (ranThen r k) (ranThen r' k') := by
  rcases h with rfl | rfl
  · exact Or.inl rfl
  · match r with
    | none => exact Or.inr rfl
    | some (.error a) => exact Or.inr rfl
    | some (.ok a) => exact hk a

theorem Agrees.ran {r r' : Except Abort α} (h : Agrees r r') : RanAgrees (some r) (some r') := by
  rcases h with rfl | rfl
  · exact Or.inl rfl
  · exact Or.inr rfl

theorem evalBin_agrees (op : BinOp) (a b : U64) :
    Agrees (evalBin true op a b) (evalBin false op a b) := by
  by_cases hover : op.divides ∧ a.toInt = -2 ^ 63 ∧ b.toInt = -1
  · have hzero : ¬ (op.divides ∧ b.toInt = 0) := by
      rw [hover.2.2]
      rintro ⟨-, h⟩
      exact absurd h (by decide)
    exact Or.inl (by rw [evalBin, if_neg hzero, if_pos ⟨rfl, hover⟩])
  · right
    simp only [evalBin, hover, and_false, if_false]

theorem IntExpr.eval_agrees : ∀ (e : IntExpr) (E : Vars), Agrees (e.eval true E) (e.eval false E)
  | .lit _, _ => Or.inr rfl
  | .var _, _ => Or.inr rfl
  | .bin op a b, E => (a.eval_agrees E).bind fun r ↦ (b.eval_agrees r.2).bind fun r' ↦
      (evalBin_agrees op r.1 r'.1).bind fun _ ↦ Or.inr rfl
  | .un _ a, E => (a.eval_agrees E).bind fun _ ↦ Or.inr rfl
  | .postinc _ _, _ => Or.inr rfl
  | .assign op x a, E => by
    rw [IntExpr.eval, IntExpr.eval]
    cases op.binOp with
    | none => exact (a.eval_agrees E).bind fun _ ↦ Or.inr rfl
    | some compound =>
      exact (a.eval_agrees E).bind fun r ↦ (evalBin_agrees compound (E x) r.1).bind
        fun _ ↦ Or.inr rfl

theorem execExpr_agrees (e : IntExpr) (E : Vars) :
    Agrees (execExpr true e E) (execExpr false e E) :=
  (e.eval_agrees E).bind fun _ ↦ Or.inr rfl

theorem execDecl_agrees (x : Name) (init : Option IntExpr) (E : Vars) :
    Agrees (execDecl true x init E) (execDecl false x init E) := by
  cases init with
  | none => exact Or.inr rfl
  | some e => exact (e.eval_agrees E).bind fun _ ↦ Or.inr rfl

theorem execInit_agrees (init : IntInit) (E : Vars) :
    Agrees (execInit true init E) (execInit false init E) := by
  cases init with
  | none => exact Or.inr rfl
  | decl x type e => exact execDecl_agrees x e E
  | expr e => exact execExpr_agrees e E

theorem evalCond_agrees (c : Option IntExpr) (E : Vars) :
    Agrees (evalCond true c E) (evalCond false c E) := by
  cases c with
  | none => exact Or.inr rfl
  | some e => exact (e.eval_agrees E).bind fun _ ↦ Or.inr rfl

theorem execPost_agrees (post : Option IntExpr) (E : Vars) :
    Agrees (execPost true post E) (execPost false post E) := by
  cases post with
  | none => exact Or.inr rfl
  | some e => exact execExpr_agrees e E

theorem execStmt_agrees (n : ℕ) (s : IntStmt) (E : Vars) :
    RanAgrees (execStmt true n s E) (execStmt false n s E) := by
  induction n generalizing s E with
  | zero => exact Or.inr rfl
  | succ n ih =>
    cases s with
    | expr e => exact (execExpr_agrees e E).ran
    | decl x type init => exact (execDecl_agrees x init E).ran
    | block body =>
      rw [execStmt, execStmt]
      induction body generalizing E with
      | nil => exact Or.inr rfl
      | cons s ss ihss => exact (ih s E).andThen ihss
    | ifThen c t =>
      refine (evalCond_agrees (some c) E).ran.andThen fun r ↦ ?_
      obtain ⟨go, E₁⟩ := r
      cases go
      · exact Or.inr rfl
      · exact ih t E₁
    | ifElse c t e =>
      refine (evalCond_agrees (some c) E).ran.andThen fun r ↦ ?_
      obtain ⟨go, E₁⟩ := r
      cases go
      · exact ih e E₁
      · exact ih t E₁
    | «while» c body =>
      refine (evalCond_agrees (some c) E).ran.andThen fun r ↦ ?_
      obtain ⟨go, E₁⟩ := r
      cases go
      · exact Or.inr rfl
      · exact (ih body E₁).andThen fun E₂ ↦ ih (.while c body) E₂
    | «for» init c post body =>
      refine (execInit_agrees init E).ran.andThen fun E₁ ↦ ?_
      refine (evalCond_agrees c E₁).ran.andThen fun r ↦ ?_
      obtain ⟨go, E₂⟩ := r
      cases go
      · exact Or.inr rfl
      · exact (ih body E₂).andThen fun E₃ ↦ (execPost_agrees post E₃).ran.andThen fun E₄ ↦
          ih (.for .none c post body) E₄

/-- A line with its first statement before others, or one that leaves no value. -/
theorem execLine_cons {strict : Bool} {n : ℕ} {s : IntStmt} {ss : List IntStmt} {E : Vars}
    (h : ss ≠ [] ∨ ∀ e, s ≠ .expr e) :
    execLine strict n (s :: ss) E = ranThen (execStmt strict n s E) (execLine strict n ss) := by
  cases s with
  | expr e =>
    cases ss with
    | nil => exact absurd rfl (h.resolve_left (not_not.mpr rfl) e)
    | cons s' ss => rfl
  | _ => rfl

theorem execLine_agrees (n : ℕ) (ss : List IntStmt) (E : Vars) :
    RanAgrees (execLine true n ss E) (execLine false n ss E) := by
  induction ss generalizing E with
  | nil => exact Or.inr rfl
  | cons s ss ih =>
    by_cases h : ss ≠ [] ∨ ∀ e, s ≠ .expr e
    · rw [execLine_cons h, execLine_cons h]
      exact (execStmt_agrees n s E).andThen ih
    · push Not at h
      obtain ⟨rfl, e, rfl⟩ := h
      refine Agrees.ran ?_
      rcases e.eval_agrees E with hover | heq
      · exact Or.inl (by rw [hover]; rfl)
      · exact Or.inr (by rw [heq])

end Strict

end NoOsKernel.Noc
