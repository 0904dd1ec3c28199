import NoOsKernel.Lib.Yields
import NoOsKernel.Noc.ParserPrint

/-!
# The grammar of NOC

The grammar the parser of `kernel/noc/parser.c` is written for, as a relation between a part of the
tokens and the tree it stands for. The levels of an expression are the ranks of the operators: postfix
operators are at `0`, unary ones at `1`, assignments at `12`. An operator of two operands takes a left
operand of its own level and a right one of the level below. Only a name is called, incremented or
assigned to; it may stand in parentheses. An `else` belongs to the nearest `if` that has none.

Everything the parser accepts is derived by the grammar (`nocParse_derives`), whatever the arena
refuses, if it does not refuse the node of a default value.
-/

set_option autoImplicit false
set_option relaxedAutoImplicit false

namespace NoOsKernel.Noc

open Lib Scan

/-! ### Expressions -/

/-- What an expression is made of, with its trees. -/
inductive Phrase where
  | primary (e : Expr)
  | level (r : ℕ) (e : Expr)
  | args (es : List Expr)

/-- The tokens from `i` to `j` are a phrase. -/
inductive Derives (toks : ℕ → Tok) : Phrase → ℕ → ℕ → Prop
  | num {i : ℕ} {v : U64} (h : toks i = .num v) : Derives toks (.primary (.lit v)) i (i + 1)
  | str {i : ℕ} {s : Name} (h : toks i = .str s) : Derives toks (.primary (.str s)) i (i + 1)
  | kwTrue {i : ℕ} (h : toks i = .kwTrue) : Derives toks (.primary (.lit 1)) i (i + 1)
  | kwFalse {i : ℕ} (h : toks i = .kwFalse) : Derives toks (.primary (.lit 0)) i (i + 1)
  | var {i : ℕ} {x : Name} (h : toks i = .ident x) : Derives toks (.primary (.var x)) i (i + 1)
  | paren {i j : ℕ} {e : Expr} (hlp : toks i = .lp) (he : Derives toks (.level 12 e) (i + 1) j)
      (hrp : toks j = .rp) : Derives toks (.primary e) i (j + 1)
  | primary {i j : ℕ} {e : Expr} (he : Derives toks (.primary e) i j) : Derives toks (.level 0 e) i j
  | callNone {i m : ℕ} {f : Name} (hf : Derives toks (.primary (.var f)) i m) (hlp : toks m = .lp)
      (hrp : toks (m + 1) = .rp) : Derives toks (.level 0 (.call f [])) i (m + 1 + 1)
  | call {i m j : ℕ} {f : Name} {es : List Expr} (hf : Derives toks (.primary (.var f)) i m)
      (hlp : toks m = .lp) (hargs : Derives toks (.args es) (m + 1) j)
      (hroom : es.length ≤ nocMaxArgs) (hrp : toks j = .rp) :
      Derives toks (.level 0 (.call f es)) i (j + 1)
  | postinc {i m : ℕ} {x : Name} {plus : Bool} (hx : Derives toks (.primary (.var x)) i m)
      (hinc : toks m = incToken plus) : Derives toks (.level 0 (.postinc x plus)) i (m + 1)
  | un {i j : ℕ} {op : UnOp} {a : Expr} (hop : toks i = op.token)
      (ha : Derives toks (.level 1 a) (i + 1) j) : Derives toks (.level 1 (.un op a)) i j
  | preinc {i j : ℕ} {x : Name} {plus : Bool} (hinc : toks i = incToken plus)
      (hx : Derives toks (.level 1 (.var x)) (i + 1) j) : Derives toks (.level 1 (.preinc x plus)) i j
  | bin {i m j r : ℕ} {op : Operator} {a b : Expr} (hrank : op.rank = r + 1)
      (ha : Derives toks (.level (r + 1) a) i m) (hop : toks m = op.token)
      (hb : Derives toks (.level r b) (m + 1) j) : Derives toks (.level (r + 1) (op.node a b)) i j
  | assign {i m j : ℕ} {op : AssignOp} {x : Name} {a : Expr}
      (hx : Derives toks (.level 11 (.var x)) i m) (hop : toks m = op.token)
      (ha : Derives toks (.level 12 a) (m + 1) j) : Derives toks (.level 12 (.assign op x a)) i j
  | weaker {i j r : ℕ} {e : Expr} (hr : r < 12) (he : Derives toks (.level r e) i j) :
      Derives toks (.level (r + 1) e) i j
  | arg {i j : ℕ} {e : Expr} (he : Derives toks (.level 12 e) i j) : Derives toks (.args [e]) i j
  | moreArgs {i m j : ℕ} {e : Expr} {es : List Expr} (he : Derives toks (.level 12 e) i m)
      (hcomma : toks m = .comma) (hes : Derives toks (.args es) (m + 1) j) :
      Derives toks (.args (e :: es)) i j

/-! ### Statements -/

section Parts

variable (toks : ℕ → Tok)

/-- A statement ends at a semicolon, or at the end of the input. -/
def Ends (i j : ℕ) : Prop := toks i = .semi ∧ j = i + 1 ∨ toks i = .eof ∧ j = i

/-- An initial value, which may be left out. -/
def InitFrom : Option Expr → ℕ → ℕ → Prop
  | none, i, j => j = i
  | some e, i, j => toks i = .eq ∧ Derives toks (.level 12 e) (i + 1) j

/-- An expression that may be left out. -/
def OptFrom : Option Expr → ℕ → ℕ → Prop
  | none, i, j => j = i
  | some e, i, j => Derives toks (.level 12 e) i j

/-- The token of a default value. -/
def IsDefault (v : U64) (t : Tok) : Prop := t = .num v ∨ t = .kwTrue ∧ v = 1 ∨ t = .kwFalse ∧ v = 0

/-- A default value, which may be left out. -/
def DefaultFrom : Option U64 → ℕ → ℕ → Prop
  | none, i, j => j = i
  | some v, i, j => toks i = .eq ∧ IsDefault v (toks (i + 1)) ∧ j = i + 1 + 1

/-- A parameter. -/
def ParamFrom (p : Param) (i j : ℕ) : Prop :=
  toks i = .type p.type ∧ toks (i + 1) = .ident p.name ∧ DefaultFrom toks p.default (i + 1 + 1) j

/-- Parameters with commas between them. -/
def ParamsFrom : List Param → ℕ → ℕ → Prop
  | [], _, _ => False
  | [p], i, j => ParamFrom toks p i j
  | p :: ps, i, j => ∃ m, ParamFrom toks p i m ∧ toks m = .comma ∧ ParamsFrom ps (m + 1) j

/-- The parameters of a function in their parentheses. -/
def SignatureFrom (ps : Params) (i j : ℕ) : Prop :=
  toks i = .lp ∧ (ps.val = [] ∧ toks (i + 1) = .rp ∧ j = i + 1 + 1 ∨
    ∃ m, ParamsFrom toks ps.val (i + 1) m ∧ ps.val.length < nocMaxArgs ∧ toks m = .rp ∧ j = m + 1)

/-- The first clause of a `for` with its semicolon. -/
def ForInitFrom : ForInit → ℕ → ℕ → Prop
  | .none, i, j => toks i = .semi ∧ j = i + 1
  | .decl x type init, i, j => toks i = .type type ∧ toks (i + 1) = .ident x ∧
      ∃ m, InitFrom toks init (i + 1 + 1) m ∧ toks m = .semi ∧ j = m + 1
  | .expr e, i, j => ∃ m, Derives toks (.level 12 e) i m ∧ toks m = .semi ∧ j = m + 1

/-- What stands behind the `return`. Without an expression there must be a semicolon. -/
def ReturnFrom : Option Expr → ℕ → ℕ → Prop
  | none, i, j => toks i = .semi ∧ j = i + 1
  | some e, i, j => ∃ m, Derives toks (.level 12 e) i m ∧ Ends toks m j

end Parts

/-- A statement, or some statements. -/
inductive Clause where
  | stmt (s : Stmt)
  | stmts (ss : List Stmt)

/-- The tokens from `i` to `j` are a statement, or some statements. -/
inductive Forms (toks : ℕ → Tok) : Clause → ℕ → ℕ → Prop
  | expr {i m j : ℕ} {e : Expr} (he : Derives toks (.level 12 e) i m) (hend : Ends toks m j) :
      Forms toks (.stmt (.expr e)) i j
  | decl {i m j : ℕ} {x : Name} {type : NType} {init : Option Expr} (htype : toks i = .type type)
      (hx : toks (i + 1) = .ident x) (hinit : InitFrom toks init (i + 1 + 1) m)
      (hend : Ends toks m j) : Forms toks (.stmt (.decl x type init)) i j
  | func {i m j : ℕ} {f : Name} {type : NType} {ps : Params} {body : List Stmt}
      (htype : toks i = .type type) (hf : toks (i + 1) = .ident f)
      (hps : SignatureFrom toks ps (i + 1 + 1) m) (hlb : toks m = .lb)
      (hbody : Forms toks (.stmts body) (m + 1) j) (hrb : toks j = .rb) :
      Forms toks (.stmt (.func type f ps body)) i (j + 1)
  | block {i j : ℕ} {body : List Stmt} (hlb : toks i = .lb)
      (hbody : Forms toks (.stmts body) (i + 1) j) (hrb : toks j = .rb) :
      Forms toks (.stmt (.block body)) i (j + 1)
  | ifThen {i m j : ℕ} {c : Expr} {t : Stmt} (hif : toks i = .kwIf) (hlp : toks (i + 1) = .lp)
      (hc : Derives toks (.level 12 c) (i + 1 + 1) m) (hrp : toks m = .rp)
      (ht : Forms toks (.stmt t) (m + 1) j) (helse : toks j ≠ .kwElse) :
      Forms toks (.stmt (.ifThen c t)) i j
  | ifElse {i m k j : ℕ} {c : Expr} {t e : Stmt} (hif : toks i = .kwIf) (hlp : toks (i + 1) = .lp)
      (hc : Derives toks (.level 12 c) (i + 1 + 1) m) (hrp : toks m = .rp)
      (ht : Forms toks (.stmt t) (m + 1) k) (helse : toks k = .kwElse)
      (he : Forms toks (.stmt e) (k + 1) j) : Forms toks (.stmt (.ifElse c t e)) i j
  | while {i m j : ℕ} {c : Expr} {body : Stmt} (hwhile : toks i = .kwWhile)
      (hlp : toks (i + 1) = .lp) (hc : Derives toks (.level 12 c) (i + 1 + 1) m)
      (hrp : toks m = .rp) (hbody : Forms toks (.stmt body) (m + 1) j) :
      Forms toks (.stmt (.while c body)) i j
  | for {i k m n j : ℕ} {init : ForInit} {c post : Option Expr} {body : Stmt}
      (hfor : toks i = .kwFor) (hlp : toks (i + 1) = .lp)
      (hinit : ForInitFrom toks init (i + 1 + 1) k) (hc : OptFrom toks c k m)
      (hsemi : toks m = .semi) (hpost : OptFrom toks post (m + 1) n) (hrp : toks n = .rp)
      (hbody : Forms toks (.stmt body) (n + 1) j) : Forms toks (.stmt (.for init c post body)) i j
  | ret {i j : ℕ} {e : Option Expr} (hreturn : toks i = .kwReturn)
      (he : ReturnFrom toks e (i + 1) j) : Forms toks (.stmt (.ret e)) i j
  | nil (i : ℕ) : Forms toks (.stmts []) i i
  | cons {i m j : ℕ} {s : Stmt} {ss : List Stmt} (hs : Forms toks (.stmt s) i m)
      (hss : Forms toks (.stmts ss) m j) : Forms toks (.stmts (s :: ss)) i j

/-- The tokens up to the end of the input are some statements. -/
def Program (toks : ℕ → Tok) (ss : List Stmt) (n : ℕ) : Prop :=
  Forms toks (.stmts ss) 0 n ∧ toks n = .eof

/-! ### Single tokens -/

section Tokens

variable {toks : ℕ → Tok} {may : ParseRequest → Bool → Prop} {i : ℕ} {β : Type} {t : Tok}
  {what : ParseError} {good : β → ℕ → Prop}

/-- An event, whatever it is. -/
def AnyEvent (_ : ParseEvent) : Prop := True

theorem anyEvent (e : ParseEvent) : AnyEvent e := trivial

theorem yields_cur {f : Tok → Parse β} (h : Yields may (f (toks i)) i good) :
    Yields may (cur toks >>= f) i good :=
  (cur_does (anyEvent _)).yields h

theorem yields_advance {k : ℕ} {f : Unit → Parse β} (h : Yields may (f ()) (i + k) good) :
    Yields may (advance k >>= f) i good :=
  (does_advance AnyEvent k i).yields h

theorem yields_report {e : ParseEvent} {f : Unit → Parse β} (h : Yields may (f ()) i good) :
    Yields may (report e >>= f) i good :=
  (does_report (anyEvent _) i).yields h

theorem yields_accept {f : Bool → Parse β} (hyes : toks i = t → Yields may (f true) (i + 1) good)
    (hno : toks i ≠ t → Yields may (f false) i good) : Yields may (accept toks t >>= f) i good := by
  by_cases ht : toks i = t
  · exact (accept_does (anyEvent _) ht).yields (hyes ht)
  · exact (accept_does_not (anyEvent _) ht).yields (hno ht)

theorem yields_expect {f : Unit → Parse β} (h : toks i = t → Yields may (f ()) (i + 1) good) :
    Yields may (expect toks t what >>= f) i good := by
  by_cases ht : toks i = t
  · exact (expect_does (anyEvent _) ht).yields (h ht)
  · have hfails : Yields may (expect toks t what) i fun _ _ ↦ False := by
      refine yields_cur ?_
      rw [if_neg ht]
      exact yields_failWith
    exact yields_bind hfails fun _ _ hfalse ↦ hfalse.elim

theorem yields_newAst {f : Unit → Parse β} (h : Yields may (f ()) i good) :
    Yields may (newAst >>= f) i good := by
  refine yields_behind (yields_request fun granted _ ↦ ?_) fun _ ↦ h
  split
  · exact yields_pure rfl
  · exact yields_failWith

theorem yields_checkedArray {arr : NodeArray} {memory : ParseError} {allocated : Bool}
    {f : Unit → Parse β} (h : Yields may (f ()) i good) :
    Yields may (checkedArray arr memory allocated >>= f) i good := by
  refine yields_behind ?_ fun _ ↦ h
  unfold checkedArray
  split
  · exact yields_pure rfl
  · refine yields_request fun granted _ ↦ ?_
    split
    · exact yields_pure rfl
    · exact yields_failWith

theorem semiOk_yields : Yields may (semiOk toks) i fun _ j ↦ Ends toks i j := by
  refine yields_accept (fun hsemi ↦ yields_pure (Or.inl ⟨hsemi, rfl⟩)) fun _ ↦ yields_cur ?_
  split
  · rename_i heof
    exact yields_pure (Or.inr ⟨heof, rfl⟩)
  · exact yields_failWith

theorem leaf_yields {e : Expr} {good : Expr → ℕ → Prop} (h : good e (i + 1)) :
    Yields may (leaf e) i good := by
  refine yields_request fun granted _ ↦ yields_advance ?_
  split
  · exact yields_pure h
  · exact yields_failWith

end Tokens

/-! ### Expressions -/

theorem varName_eq_some {e : Expr} {x : Name} (h : e.varName = some x) : e = .var x := by
  cases e with
  | var y => exact congrArg Expr.var (Option.some.inj h)
  | _ => exact absurd h nofun

/-- An entry that is found is in the table. -/
theorem mem_of_lookup {α β : Type} [BEq α] [LawfulBEq α] {l : List (α × β)} {a : α} {b : β}
    (h : l.lookup a = some b) : (a, b) ∈ l := by
  obtain ⟨l₁, l₂, rfl, -⟩ := List.lookup_eq_some_iff.mp h
  exact List.mem_append_right l₁ List.mem_cons_self

theorem Operator.of_lookup {r : ℕ} {t : Tok} {node : Expr → Expr → Expr}
    (h : (ofRank r).lookup t = some node) : ∃ op : Operator, op.rank = r ∧ t = op.token ∧
      node = op.node := by
  have hmem : (t, node) ∈ ofRank r := mem_of_lookup h
  obtain ⟨op, hop, heq⟩ := List.mem_map.mp hmem
  obtain ⟨htok, hnode⟩ := Prod.mk.inj heq
  exact ⟨op, of_decide_eq_true (List.mem_filter.mp hop).2, htok.symm, hnode.symm⟩

theorem assignOp_of_lookup {t : Tok} {op : AssignOp} (h : assignOps.lookup t = some op) :
    t = op.token := by
  have hmem : (t, op) ∈ assignOps := mem_of_lookup h
  have hall : ∀ e ∈ assignOps, e.1 = e.2.token := by decide
  exact hall _ hmem

section Expressions

variable {toks : ℕ → Tok} {may : ParseRequest → Bool → Prop} {expr : Parse Expr} {i k fuel loops r : ℕ}

variable (toks may) in
/-- A part of the parser finds expressions of a level. -/
def Finds (r : ℕ) (p : Parse Expr) : Prop :=
  ∀ i, Yields may p i fun e j ↦ Derives toks (.level r e) i j

theorem parsePrimary_yields (hexpr : Finds toks may 12 expr) :
    Yields may (parsePrimary toks expr) i fun e j ↦ Derives toks (.primary e) i j := by
  refine yields_cur ?_
  generalize htok : toks i = t
  cases t
  case num v => exact leaf_yields (.num htok)
  case str s => exact leaf_yields (.str htok)
  case kwTrue => exact leaf_yields (.kwTrue htok)
  case kwFalse => exact leaf_yields (.kwFalse htok)
  case ident x => exact leaf_yields (.var htok)
  case lp =>
    refine yields_advance (yields_bind (yields_attempt (hexpr (i + 1))) ?_)
    rintro (_ | e) j hj
    · exact yields_expect fun _ ↦ yields_fail
    · exact yields_expect fun hrp ↦ yields_pure (.paren htok (hj e rfl) hrp)
  all_goals exact yields_failWith

/-- The arguments behind those that are there. -/
theorem argLoop_yields (hexpr : Finds toks may 12 expr) (allocated : Bool) (done : List Expr) :
    Yields may (argLoop toks expr fuel allocated done) i fun es j ↦
      ∃ new, es = done ++ new ∧ es.length ≤ nocMaxArgs ∧ Derives toks (.args new) i j := by
  induction fuel generalizing i allocated done with
  | zero => exact yields_stuck
  | succ fuel ih =>
    refine yields_bind (hexpr i) fun a m ha ↦ ?_
    split
    · exact yields_failWith
    · rename_i hroom
      have hlen : (done ++ [a]).length ≤ nocMaxArgs := by
        rw [List.length_append, List.length_singleton]
        omega
      have hput (b : Bool) : Yields may (do
          report (.put .callArgs (!b) done.length)
          let more ← accept toks .comma
          if more then argLoop toks expr fuel b (done ++ [a]) else pure (done ++ [a])) m
          fun es j ↦ ∃ new, es = done ++ new ∧ es.length ≤ nocMaxArgs ∧
            Derives toks (.args new) i j := by
        refine yields_report (yields_accept (fun hcomma ↦ ?_) fun _ ↦ ?_)
        · refine (ih b (done ++ [a])).mono ?_
          rintro _ j ⟨new, rfl, hle, hnew⟩
          exact ⟨a :: new, List.append_assoc _ _ _, hle, .moreArgs ha hcomma hnew⟩
        · exact yields_pure ⟨[a], rfl, hlen, .arg ha⟩
      cases allocated with
      | true => exact hput true
      | false => exact yields_request fun b _ ↦ hput b

/-- Where the loop over the postfix operators is: in front of them, or behind one, and what it has
cannot be called or incremented again. -/
def Postfixed (toks : ℕ → Tok) (k : ℕ) (e : Expr) (i : ℕ) : Prop :=
  Derives toks (.primary e) k i ∨ e.varName = none ∧ Derives toks (.level 0 e) k i

theorem Postfixed.level {e : Expr} (h : Postfixed toks k e i) : Derives toks (.level 0 e) k i :=
  h.elim .primary And.right

theorem Postfixed.var {e : Expr} {x : Name} (h : Postfixed toks k e i) (hx : e.varName = some x) :
    Derives toks (.primary (.var x)) k i := by
  rcases h with h | ⟨hnone, -⟩
  · rwa [varName_eq_some hx] at h
  · exact absurd (hx.symm.trans hnone) nofun

theorem postfixLoop_yields (hexpr : Finds toks may 12 expr) {e : Expr} (h : Postfixed toks k e i) :
    Yields may (postfixLoop toks expr fuel e) i fun e' j ↦ Derives toks (.level 0 e') k j := by
  induction fuel generalizing i e with
  | zero => exact yields_stuck
  | succ fuel ih =>
    refine yields_cur ?_
    split
    · rename_i hlp
      refine yields_advance (yields_newAst ?_)
      cases hx : e.varName with
      | none => exact yields_failWith
      | some f =>
        have hf := h.var hx
        have hargs : Yields may (parseArgs toks expr fuel) (i + 1) fun es j ↦ toks j = .rp →
            Derives toks (.level 0 (.call f es)) k (j + 1) := by
          refine yields_cur ?_
          split
          · exact yields_pure (.callNone hf hlp)
          · refine (argLoop_yields hexpr false []).mono ?_
            rintro _ j ⟨new, rfl, hroom, hnew⟩ hrp
            exact .call hf hlp hnew hroom hrp
        exact yields_bind hargs fun es j hes ↦ yields_expect fun hrp ↦ ih (Or.inr ⟨rfl, hes hrp⟩)
    · split
      · rename_i hinc
        refine yields_advance ?_
        cases hx : e.varName with
        | none => exact yields_failWith
        | some x =>
          refine yields_newAst (ih (Or.inr ⟨rfl, .postinc (h.var hx) ?_⟩))
          rcases hinc with hinc | hinc <;> rw [hinc] <;> rfl
      · exact yields_pure h.level

theorem parsePostfix_finds (hexpr : Finds toks may 12 expr) :
    Finds toks may 0 (parsePostfix toks expr fuel) := fun _ ↦
  yields_bind (parsePrimary_yields hexpr) fun _ _ he ↦ postfixLoop_yields hexpr (Or.inl he)

/-- The node of an operator in front of its operand. -/
theorem unaryNode_yields {a : Expr} (hop : isUnary (toks k) = true)
    (ha : Derives toks (.level 1 a) (k + 1) i) :
    Yields may (unaryNode (toks k) a) i fun e j ↦ Derives toks (.level 1 e) k j := by
  unfold unaryNode
  split_ifs with hbang hminus htilde
  · exact yields_pure (@Derives.un _ _ _ .not _ hbang ha)
  · exact yields_pure (@Derives.un _ _ _ .neg _ hminus ha)
  · exact yields_pure (@Derives.un _ _ _ .bnot _ htilde ha)
  · cases hx : a.varName with
    | none => exact yields_failWith
    | some x =>
      rw [varName_eq_some hx] at ha
      refine yields_pure (.preinc ?_ ha)
      simp only [isUnary, hbang, hminus, htilde, false_or, decide_eq_true_eq] at hop
      rcases hop with hop | hop <;> rw [hop] <;> rfl

theorem parseUnary_finds (hexpr : Finds toks may 12 expr) :
    Finds toks may 1 (parseUnary toks expr loops fuel) := by
  induction fuel with
  | zero => exact fun _ ↦ yields_stuck
  | succ fuel ih =>
    intro i
    refine yields_cur ?_
    split
    · rename_i hop
      refine yields_advance (yields_newAst (yields_bind (ih (i + 1)) fun a j ha ↦ ?_))
      exact unaryNode_yields hop ha
    · exact (parsePostfix_finds hexpr i).mono fun _ _ he ↦ .weaker (by decide) he

theorem binopLoop_yields {higher : Parse Expr} (hhigher : Finds toks may r higher) {lhs : Expr}
    (h : Derives toks (.level (r + 1) lhs) k i) :
    Yields may (binopLoop toks higher (Operator.ofRank (r + 1)) fuel lhs) i fun e j ↦
      Derives toks (.level (r + 1) e) k j := by
  induction fuel generalizing i lhs with
  | zero => exact yields_stuck
  | succ fuel ih =>
    refine yields_cur ?_
    cases hop : (Operator.ofRank (r + 1)).lookup (toks i) with
    | none => exact yields_pure h
    | some node =>
      obtain ⟨op, hrank, htok, rfl⟩ := Operator.of_lookup hop
      refine yields_advance (yields_bind (hhigher (i + 1)) fun rhs j hrhs ↦ ?_)
      exact yields_newAst (ih (.bin hrank h htok hrhs))

theorem climb_finds (hexpr : Finds toks may 12 expr) (hr : r < 12) :
    Finds toks may r (climb toks expr loops fuel r) := by
  induction r with
  | zero => exact parsePostfix_finds hexpr
  | succ r ih =>
    cases r with
    | zero => exact parseUnary_finds hexpr
    | succ r =>
      have hhigher := ih (Nat.lt_of_succ_lt hr)
      exact fun i ↦ yields_bind (hhigher i) fun lhs m hlhs ↦
        binopLoop_yields hhigher (.weaker (Nat.lt_of_succ_lt hr) hlhs)

theorem parseAssign_finds (hexpr : Finds toks may 12 expr) :
    Finds toks may 12 (parseAssign toks expr loops fuel) := by
  induction fuel with
  | zero => exact fun _ ↦ yields_stuck
  | succ fuel ih =>
    intro i
    have hclimb : Finds toks may 11 (climb toks expr loops loops 11) := climb_finds hexpr (by decide)
    have hlhs := hclimb i
    refine yields_bind hlhs fun lhs m hlhs ↦ yields_cur ?_
    cases hop : assignOps.lookup (toks m) with
    | none => exact yields_pure (.weaker (by decide) hlhs)
    | some op =>
      cases hx : lhs.varName with
      | none => exact yields_failWith
      | some x =>
        rw [varName_eq_some hx] at hlhs
        refine yields_advance (yields_bind (ih (m + 1)) fun rhs j hrhs ↦ yields_newAst ?_)
        exact yields_pure (.assign hlhs (assignOp_of_lookup hop) hrhs)

theorem parseExpr_finds : Finds toks may 12 (parseExpr toks fuel) := by
  induction fuel with
  | zero => exact fun _ ↦ yields_stuck
  | succ fuel ih => exact parseAssign_finds ih

end Expressions

/-! ### Statements -/

/-- The answers under which parsing never goes on without a node it has asked for. -/
def KeepsDefaults (r : ParseRequest) (granted : Bool) : Prop := r = .defaultNode → granted = true

section Statements

variable {toks : ℕ → Tok} {may : ParseRequest → Bool → Prop} {expr : Parse Expr} {stmt : Parse Stmt}
  {i fuel : ℕ}

variable (toks) in
/-- A part of the parser finds statements. -/
def FindsStmt (p : Parse Stmt) : Prop :=
  ∀ i, Yields KeepsDefaults p i fun s j ↦ Forms toks (.stmt s) i j

theorem optionalInit_yields (hexpr : Finds toks may 12 expr) :
    Yields may (optionalInit toks expr) i fun init j ↦ InitFrom toks init i j := by
  refine yields_accept (fun heq ↦ ?_) fun _ ↦ yields_pure rfl
  exact yields_bind (hexpr (i + 1)) fun _ _ he ↦ yields_pure ⟨heq, he⟩

theorem optionalExpr_yields (hexpr : Finds toks may 12 expr) (stop : Tok) :
    Yields may (optionalExpr toks expr stop) i fun e j ↦
      OptFrom toks e i j ∧ (e = none → toks i = stop) := by
  refine yields_cur ?_
  split
  · rename_i hstop
    exact yields_pure ⟨rfl, fun _ ↦ hstop⟩
  · exact yields_bind (hexpr i) fun _ _ he ↦ yields_pure ⟨he, nofun⟩

theorem defaultLeaf_yields {v : U64} :
    Yields KeepsDefaults (defaultLeaf v) i fun d j ↦ d = some v ∧ j = i + 1 := by
  refine yields_request fun granted hgranted ↦ ?_
  rw [hgranted rfl]
  exact yields_advance (yields_pure ⟨rfl, rfl⟩)

theorem optionalDefault_yields :
    Yields KeepsDefaults (optionalDefault toks) i fun d j ↦ DefaultFrom toks d i j := by
  refine yields_accept (fun heq ↦ yields_cur ?_) fun _ ↦ yields_pure rfl
  generalize htok : toks (i + 1) = t
  have hleaf : ∀ v, IsDefault v (toks (i + 1)) →
      Yields KeepsDefaults (defaultLeaf v) (i + 1) fun d j ↦ DefaultFrom toks d i j := by
    intro v hv
    refine defaultLeaf_yields.mono ?_
    rintro _ _ ⟨rfl, rfl⟩
    exact ⟨heq, hv, rfl⟩
  rw [htok] at hleaf
  cases t
  case num v => exact hleaf v (Or.inl rfl)
  case kwTrue => exact hleaf 1 (Or.inr (Or.inl ⟨rfl, rfl⟩))
  case kwFalse => exact hleaf 0 (Or.inr (Or.inr ⟨rfl, rfl⟩))
  all_goals exact yields_failWith

/-- The parameters behind those that are there. -/
theorem paramLoop_yields (done : List Param) :
    Yields KeepsDefaults (paramLoop toks fuel done) i fun ps j ↦
      ∃ new, ps.val = done ++ new ∧ ps.val.length < nocMaxArgs ∧ ParamsFrom toks new i j := by
  induction fuel generalizing i done with
  | zero => exact yields_stuck
  | succ fuel ih =>
    refine yields_cur ?_
    generalize htype : toks i = t
    cases t
    case type type =>
      refine yields_advance (yields_cur ?_)
      generalize hx : toks (i + 1) = c
      cases c
      case ident x =>
        refine yields_newAst (yields_advance (yields_bind optionalDefault_yields fun d m hd ↦ ?_))
        have hp : ParamFrom toks ⟨x, type, d⟩ i m := ⟨htype, hx, hd⟩
        refine yields_checkedArray (yields_report ?_)
        split
        · rename_i hroom
          have hlen : (done ++ [(⟨x, type, d⟩ : Param)]).length < nocMaxArgs := by
            rw [List.length_append, List.length_singleton]
            exact hroom
          refine yields_accept (fun hcomma ↦ ?_) fun _ ↦ ?_
          · refine (ih (done ++ [⟨x, type, d⟩])).mono ?_
            rintro ⟨_, _⟩ j ⟨new, rfl, hle, hnew⟩
            refine ⟨⟨x, type, d⟩ :: new, List.append_assoc _ _ _, hle, ?_⟩
            cases new with
            | nil => exact hnew.elim
            | cons p ps => exact ⟨m, hp, hcomma, hnew⟩
          · exact yields_pure ⟨[⟨x, type, d⟩], rfl, hlen, hp⟩
        · exact yields_failWith
      all_goals exact yields_failWith
    all_goals exact yields_failWith

theorem parseParams_yields :
    Yields KeepsDefaults (parseParams toks fuel) i fun ps j ↦ SignatureFrom toks ps i j := by
  refine yields_expect fun hlp ↦ yields_accept (fun hrp ↦ ?_) fun _ ↦ ?_
  · exact yields_pure ⟨hlp, Or.inl ⟨rfl, hrp, rfl⟩⟩
  · refine yields_bind (paramLoop_yields []) ?_
    rintro ⟨_, _⟩ m ⟨new, rfl, hlen, hnew⟩
    exact yields_expect fun hrp ↦ yields_pure ⟨hlp, Or.inr ⟨m, hnew, hlen, hrp, rfl⟩⟩

/-- The statements of a block behind those that are there. -/
theorem blockLoop_yields (hstmt : FindsStmt toks stmt) (body : List Stmt) :
    Yields KeepsDefaults (blockLoop toks stmt fuel body) i fun ss j ↦
      ∃ new m, ss = body ++ new ∧ Forms toks (.stmts new) i m ∧ toks m = .rb ∧ j = m + 1 := by
  induction fuel generalizing i body with
  | zero => exact yields_stuck
  | succ fuel ih =>
    refine yields_cur ?_
    split
    · rename_i hrb
      exact yields_advance (yields_pure ⟨[], i, (List.append_nil body).symm, .nil i, hrb, rfl⟩)
    · split
      · exact yields_failWith
      · refine yields_bind (hstmt i) fun s m hs ↦ yields_checkedArray (yields_report ?_)
        refine (ih (body ++ [s])).mono ?_
        rintro _ _ ⟨new, k, rfl, hnew, hrb, rfl⟩
        exact ⟨s :: new, k, List.append_assoc _ _ _, .cons hs hnew, hrb, rfl⟩

theorem parseBlock_yields (hstmt : FindsStmt toks stmt) :
    Yields KeepsDefaults (parseBlock toks stmt fuel) i fun ss j ↦
      ∃ m, toks i = .lb ∧ Forms toks (.stmts ss) (i + 1) m ∧ toks m = .rb ∧ j = m + 1 := by
  refine yields_newAst (yields_expect fun hlb ↦ (blockLoop_yields hstmt []).mono ?_)
  rintro _ _ ⟨new, m, rfl, hnew, hrb, rfl⟩
  exact ⟨m, hlb, hnew, hrb, rfl⟩

theorem parseDeclaration_yields (hexpr : Finds toks KeepsDefaults 12 expr)
    (hstmt : FindsStmt toks stmt) {type : NType} (htype : toks i = .type type) :
    Yields KeepsDefaults (parseDeclaration toks expr stmt fuel type) i fun s j ↦
      Forms toks (.stmt s) i j := by
  refine yields_advance (yields_cur ?_)
  generalize hx : toks (i + 1) = t
  cases t
  case ident x =>
    refine yields_advance (yields_cur ?_)
    split
    · refine yields_newAst (yields_bind parseParams_yields fun ps m hps ↦ ?_)
      refine yields_bind (parseBlock_yields hstmt) ?_
      rintro body _ ⟨k, hlb, hbody, hrb, rfl⟩
      exact yields_pure (.func htype hx hps hlb hbody hrb)
    · refine yields_newAst (yields_bind (optionalInit_yields hexpr) fun init m hinit ↦ ?_)
      exact yields_bind semiOk_yields fun _ j hend ↦ yields_pure (.decl htype hx hinit hend)
  all_goals exact yields_failWith

theorem parseIf_yields (hexpr : Finds toks KeepsDefaults 12 expr) (hstmt : FindsStmt toks stmt)
    (hif : toks i = .kwIf) :
    Yields KeepsDefaults (parseIf toks expr stmt) i fun s j ↦ Forms toks (.stmt s) i j := by
  refine yields_advance (yields_newAst (yields_expect fun hlp ↦ ?_))
  refine yields_bind (hexpr _) fun c m hc ↦ yields_expect fun hrp ↦ ?_
  refine yields_bind (hstmt _) fun t k ht ↦ yields_accept (fun helse ↦ ?_) fun helse ↦ ?_
  · exact yields_bind (hstmt _) fun e j he ↦ yields_pure (.ifElse hif hlp hc hrp ht helse he)
  · exact yields_pure (.ifThen hif hlp hc hrp ht helse)

theorem parseWhile_yields (hexpr : Finds toks KeepsDefaults 12 expr) (hstmt : FindsStmt toks stmt)
    (hwhile : toks i = .kwWhile) :
    Yields KeepsDefaults (parseWhile toks expr stmt) i fun s j ↦ Forms toks (.stmt s) i j := by
  refine yields_advance (yields_newAst (yields_expect fun hlp ↦ ?_))
  refine yields_bind (hexpr _) fun c m hc ↦ yields_expect fun hrp ↦ ?_
  exact yields_bind (hstmt _) fun body j hbody ↦ yields_pure (.while hwhile hlp hc hrp hbody)

theorem parseForInit_yields (hexpr : Finds toks may 12 expr) :
    Yields may (parseForInit toks expr) i fun init j ↦ ForInitFrom toks init i j := by
  refine yields_cur ?_
  generalize htok : toks i = t
  cases t
  case semi => exact yields_advance (yields_pure ⟨htok, rfl⟩)
  case type type =>
    refine yields_advance (yields_cur ?_)
    generalize hx : toks (i + 1) = c
    cases c
    case ident x =>
      refine yields_newAst (yields_advance (yields_bind (optionalInit_yields hexpr) fun e m he ↦ ?_))
      exact yields_expect fun hsemi ↦ yields_pure ⟨htok, hx, m, he, hsemi, rfl⟩
    all_goals exact yields_failWith
  all_goals
    exact yields_bind (hexpr i) fun e m he ↦ yields_expect fun hsemi ↦ yields_pure ⟨m, he, hsemi, rfl⟩

theorem parseFor_yields (hexpr : Finds toks KeepsDefaults 12 expr) (hstmt : FindsStmt toks stmt)
    (hfor : toks i = .kwFor) :
    Yields KeepsDefaults (parseFor toks expr stmt) i fun s j ↦ Forms toks (.stmt s) i j := by
  refine yields_advance (yields_newAst (yields_expect fun hlp ↦ ?_))
  refine yields_bind (parseForInit_yields hexpr) fun init k hinit ↦ ?_
  refine yields_bind (optionalExpr_yields hexpr .semi) fun c m hc ↦ yields_expect fun hsemi ↦ ?_
  refine yields_bind (optionalExpr_yields hexpr .rp) fun post n hpost ↦ yields_expect fun hrp ↦ ?_
  refine yields_bind (hstmt _) fun body j hbody ↦ ?_
  exact yields_pure (.for hfor hlp hinit hc.1 hsemi hpost.1 hrp hbody)

theorem parseReturn_yields (hexpr : Finds toks KeepsDefaults 12 expr)
    (hreturn : toks i = .kwReturn) :
    Yields KeepsDefaults (parseReturn toks expr) i fun s j ↦ Forms toks (.stmt s) i j := by
  refine yields_advance (yields_newAst (yields_bind (optionalExpr_yields hexpr .semi) ?_))
  rintro (_ | e) m ⟨he, hstop⟩
  · obtain rfl : m = i + 1 := he
    have hsemi := hstop rfl
    refine yields_bind semiOk_yields fun _ j hend ↦ yields_pure (.ret hreturn ?_)
    rcases hend with ⟨-, rfl⟩ | ⟨heof, -⟩
    · exact ⟨hsemi, rfl⟩
    · exact absurd (heof.symm.trans hsemi) nofun
  · exact yields_bind semiOk_yields fun _ j hend ↦ yields_pure (.ret hreturn ⟨m, he, hend⟩)

theorem parseStmtExpr_yields (hexpr : Finds toks KeepsDefaults 12 expr) :
    Yields KeepsDefaults (parseStmtExpr toks expr) i fun s j ↦ Forms toks (.stmt s) i j :=
  yields_newAst (yields_bind (hexpr i) fun _ _ he ↦ yields_bind semiOk_yields fun _ _ hend ↦
    yields_pure (.expr he hend))

theorem parseStmt_finds : FindsStmt toks (parseStmt toks fuel) := by
  induction fuel with
  | zero => exact fun _ ↦ yields_stuck
  | succ fuel ih =>
    intro i
    have hexpr : Finds toks KeepsDefaults 12 (parseExpr toks (fuel + 1)) := parseExpr_finds
    have hblock : Yields KeepsDefaults (do
        let body ← parseBlock toks (parseStmt toks fuel) (fuel + 1)
        pure (.block body)) i fun s j ↦ Forms toks (.stmt s) i j := by
      refine yields_bind (parseBlock_yields ih) ?_
      rintro body _ ⟨m, hlb, hbody, hrb, rfl⟩
      exact yields_pure (.block hlb hbody hrb)
    rw [parseStmt]
    refine yields_cur ?_
    generalize htok : toks i = t
    cases t
    case type type => exact parseDeclaration_yields hexpr ih htok
    case lb => exact hblock
    case kwIf => exact parseIf_yields hexpr ih htok
    case kwWhile => exact parseWhile_yields hexpr ih htok
    case kwFor => exact parseFor_yields hexpr ih htok
    case kwReturn => exact parseReturn_yields hexpr htok
    case eof => exact yields_failWith
    all_goals exact parseStmtExpr_yields hexpr

theorem stmtLoop_yields (hstmt : FindsStmt toks stmt) (stmts : List Stmt) :
    Yields KeepsDefaults (stmtLoop toks stmt fuel stmts) i fun ss j ↦
      ∃ new, ss = stmts ++ new ∧ Forms toks (.stmts new) i j ∧ toks j = .eof := by
  induction fuel generalizing i stmts with
  | zero => exact yields_stuck
  | succ fuel ih =>
    refine yields_cur ?_
    split
    · rename_i heof
      exact yields_pure ⟨[], (List.append_nil stmts).symm, .nil i, heof⟩
    · refine yields_bind (hstmt i) fun s m hs ↦ yields_report ?_
      split
      · exact yields_failWith
      · refine (ih (stmts ++ [s])).mono ?_
        rintro _ j ⟨new, rfl, hnew, heof⟩
        exact ⟨s :: new, List.append_assoc _ _ _, .cons hs hnew, heof⟩

theorem nocParse_yields : Yields KeepsDefaults (nocParse toks fuel) 0 fun ss n ↦ Program toks ss n := by
  refine yields_request fun granted _ ↦ ?_
  split
  · refine (stmtLoop_yields parseStmt_finds []).mono ?_
    rintro _ n ⟨new, rfl, hnew, heof⟩
    exact ⟨hnew, heof⟩
  · exact yields_failWith

end Statements

/-! ### Main result -/

/-- What `noc_parse` accepts is a program of the grammar with the trees it returns, whatever the arena
is, if no node of a default value is refused. -/
theorem nocParse_derives (toks : ℕ → Tok) (fuel : ℕ) (a : Arena) {ss : List Stmt} {n : ℕ}
    (hvalue : (runParser toks fuel a).value = (.ok ss, n))
    (hacts : .asked .defaultNode false ∉ (runParser toks fuel a).acts) : Program toks ss n := by
  have hmay : ∀ r b, .asked r b ∈ (runParser toks fuel a).acts → KeepsDefaults r b := by
    rintro r b hasked rfl
    cases b with
    | true => rfl
    | false => exact absurd hasked hacts
  have hfound := Dialog.Under.run nocParse_yields.under (Arena.answer ParseRequest.size) a hmay
  rw [runParser] at hvalue
  rw [hvalue] at hfound
  exact hfound

/-- `x = 1 + f(2);` -/
def callTokens : List Tok :=
  [.ident (cstr "x"), .eq, .num 1, .plus, .ident (cstr "f"), .lp, .num 2, .rp, .semi]

/-- Its tree. -/
def callTree : Stmt :=
  .expr (.assign .assign (cstr "x") (.bin .add (.lit 1) (.call (cstr "f") [.lit 2])))

theorem nocParse_derives_callTokens : Program (callTokens.getD · .eof) [callTree] 9 :=
  nocParse_derives (callTokens.getD · .eof) 10 ⟨4096, 0, 2 ^ 20⟩ (by rfl) (by decide +kernel)

end NoOsKernel.Noc
