import NoOsKernel.Lib.Refusal
import NoOsKernel.Noc.GrammarParse
import NoOsKernel.Noc.LexerBounds

/-!
# Lexer and parser when the arena is exhausted

What `noc_lex` and `noc_parse` make of a `NULL` from `noc_arena_alloc`. All allocations are checked but
those of the buffer of a string and of the arguments of a call, which are written through, and that of
the node of a default value, without which parsing goes on.
-/

set_option autoImplicit false
set_option relaxedAutoImplicit false

namespace NoOsKernel.Noc

open Lib Kern Scan Dialog

/-! ### The lexer -/

/-- A write through `NULL`. -/
def LexEvent.ThroughNull : LexEvent → Prop
  | put null _ => null = true
  | _ => False

/-- An error. -/
def LexEvent.IsError : LexEvent → Prop
  | err _ => True
  | _ => False

/-- What the lexer does about `NULL`. -/
def lexCare : Care LexRequest LexEvent where
  handling
    | .identifier _ => .checked
    | .string => .unchecked
    | .message => .checked
  harm := LexEvent.ThroughNull
  error := LexEvent.IsError

section Lexer

variable {mem : ℕ → Byte} {fuel : ℕ}

theorem byteAt_guards {R : Byte → Byte → Prop} (k : ℕ) : Guards lexCare R (byteAt mem k) :=
  guards_bind guards_pos fun _ ↦ guards_bind (guards_report id) fun _ ↦ guards_pure _

theorem skipWhile_guards {R : Unit → Unit → Prop} (test : Byte → Bool) :
    Guards lexCare R (skipWhile mem test fuel) := by
  induction fuel with
  | zero => exact guards_stuck
  | succ fuel ih =>
    refine guards_bind (byteAt_guards 0) fun c ↦ ?_
    split
    · exact guards_bind (guards_advance 1) fun _ ↦ ih
    · exact guards_pure ()

theorem startsComment_guards {R : Bool → Bool → Prop} (c : Byte) :
    Guards lexCare R (startsComment mem c) := by
  refine guards_bind (byteAt_guards 0) fun a ↦ ?_
  split
  · exact guards_bind (byteAt_guards 1) fun b ↦ guards_pure _
  · exact guards_pure false

theorem skipBlock_guards {R : Unit → Unit → Prop} : Guards lexCare R (skipBlock mem fuel) := by
  induction fuel with
  | zero => exact guards_stuck
  | succ fuel ih =>
    have hnext : Guards lexCare R (do advance 1; skipBlock mem fuel) :=
      guards_bind (guards_advance 1) fun _ ↦ ih
    refine guards_bind (byteAt_guards 0) fun a ↦ ?_
    split_ifs
    · exact guards_pure ()
    · refine guards_bind (byteAt_guards 1) fun b ↦ ?_
      split
      · exact guards_pure ()
      · exact hnext
    · exact hnext

theorem blockComment_guards {R : Unit → Unit → Prop} : Guards lexCare R (blockComment mem fuel) := by
  refine guards_bind (guards_advance 2) fun _ ↦ guards_bind skipBlock_guards fun _ ↦ ?_
  refine guards_bind (byteAt_guards 0) fun c ↦ ?_
  split
  · exact guards_pure ()
  · exact guards_advance 2

theorem lexDigits_guards {R : U64 → U64 → Prop} (hex : Bool) (v : U64) :
    Guards lexCare R (lexDigits mem hex fuel v) := by
  induction fuel generalizing v with
  | zero => exact guards_stuck
  | succ fuel ih =>
    refine guards_bind (byteAt_guards 0) fun d ↦ ?_
    split
    · exact guards_bind (guards_advance 1) fun _ ↦ ih _
    · exact guards_pure v

theorem lexNumber_guards {R : Tok → Tok → Prop} (c : Byte) :
    Guards lexCare R (lexNumber mem fuel c) := by
  have hhex : Guards lexCare Never (startsHex mem c) := by
    unfold startsHex
    split
    · exact guards_bind (byteAt_guards 1) fun x ↦ guards_pure _
    · exact guards_pure false
  refine guards_bind hhex fun hex ↦ guards_bind (guards_advance _) fun _ ↦ ?_
  exact guards_bind (lexDigits_guards hex 0) fun v ↦ guards_pure _

theorem copySource_guards {R : Name → Name → Prop} (start len : ℕ) :
    Guards lexCare R (copySource mem start len) := by
  induction len generalizing R start with
  | zero => exact guards_pure []
  | succ len ih =>
    exact guards_bind (guards_report id) fun _ ↦ guards_bind (ih _) fun rest ↦ guards_pure _

theorem lexIdent_guards {R : Tok → Tok → Prop} : Guards lexCare R (lexIdent mem fuel) := by
  refine guards_bind guards_pos fun start ↦ guards_bind (skipWhile_guards _) fun _ ↦ ?_
  refine guards_bind guards_pos fun stop ↦ guards_checked rfl ?_ ?_
  · exact guards_bind (copySource_guards _ _) fun s ↦ guards_pure _
  · exact fun i ↦ givesUp_failWith trivial id i

theorem strByte_guards {R : Byte → Byte → Prop} (c : Byte) : Guards lexCare R (strByte mem c) := by
  refine guards_bind (guards_advance 1) fun _ ↦ ?_
  split
  · exact guards_bind (byteAt_guards 0) fun c ↦ guards_bind (guards_advance 1) fun _ ↦ guards_pure _
  · exact guards_pure c

theorem strLoop_guards {R : Name → Name → Prop} (buf : Name) :
    Guards lexCare R (strLoop mem false fuel buf) := by
  induction fuel generalizing buf with
  | zero => exact guards_stuck
  | succ fuel ih =>
    refine guards_bind (byteAt_guards 0) fun c ↦ ?_
    split
    · exact guards_pure buf
    · refine guards_bind (strByte_guards c) fun e ↦ guards_bind (guards_report Bool.false_ne_true) ?_
      intro _
      split
      · exact guards_failWith id
      · exact ih _

theorem skipQuote_guards {R : Unit → Unit → Prop} : Guards lexCare R (skipQuote mem) :=
  guards_bind (byteAt_guards 0) fun _ ↦ guards_advance _

/-- A string without a buffer is written through `NULL` before it can be too long. -/
theorem strLoop_harms (buf : Name) (i : ℕ) :
    (strLoop mem true fuel buf i).Eventually lexCare.harm fun x ↦ x.1 ≠ .null := by
  cases fuel with
  | zero => exact stuck_ne_null
  | succ fuel =>
    refine eventually_bind (.inr (ok_ne_null _)) (fun c j ↦ ?_) fun _ ↦ stuck_ne_null
    split
    · exact ok_ne_null buf
    · refine eventually_bind ?_ (fun e k ↦ .inl rfl) fun _ ↦ stuck_ne_null
      refine eventually_bind (ok_ne_null ()) (fun _ k ↦ ?_) fun _ ↦ stuck_ne_null
      split
      · exact .inr (ok_ne_null _)
      · exact ok_ne_null c

theorem lexStr_guards {R : Tok → Tok → Prop} : Guards lexCare R (lexStr mem fuel) := by
  refine guards_bind (guards_advance 1) fun _ ↦ guards_unchecked rfl ?_ ?_
  · refine guards_bind (strLoop_guards []) fun s ↦ guards_bind skipQuote_guards fun _ ↦ ?_
    exact guards_bind (guards_report Bool.false_ne_true) fun _ ↦ guards_pure _
  · intro i
    refine eventually_bind (strLoop_harms [] i) (fun s j ↦ ?_) fun _ ↦ rfl
    exact eventually_bind (.inr (ok_ne_null _)) (fun _ k ↦ .inl rfl) fun _ ↦ rfl

theorem sameBytes_guards {R : Bool → Bool → Prop} (k : ℕ) (bs : Name) :
    Guards lexCare R (sameBytes mem k bs) := by
  induction bs generalizing k with
  | nil => exact guards_pure true
  | cons b bs ih =>
    refine guards_bind (byteAt_guards k) fun c ↦ ?_
    split
    · exact ih _
    · exact guards_pure false

theorem lexUnexpected_guards {R : Tok → Tok → Prop} (c : Byte) :
    Guards lexCare R (lexUnexpected c) :=
  guards_checked rfl (guards_failWith id) fun i ↦ givesUp_failWith trivial id i

theorem lexOperator_guards {R : Tok → Tok → Prop} (c : Byte) (ops : List (Name × Tok)) :
    Guards lexCare R (lexOperator mem c ops) := by
  induction ops with
  | nil => exact lexUnexpected_guards c
  | cons op ops ih =>
    refine guards_bind (sameBytes_guards 0 op.1) fun same ↦ ?_
    split
    · exact guards_bind (guards_advance _) fun _ ↦ guards_pure _
    · exact ih

theorem lexToken_guards {R : Tok → Tok → Prop} (c : Byte) :
    Guards lexCare R (lexToken mem fuel c) := by
  unfold lexToken
  split_ifs
  · exact lexNumber_guards c
  · exact lexIdent_guards
  · exact lexStr_guards
  · exact lexOperator_guards c operators

theorem lexLoop_guards {R : List Tok → List Tok → Prop} (maxtoks : ℕ) (toks : List Tok) :
    Guards lexCare R (lexLoop mem maxtoks fuel toks) := by
  induction fuel generalizing toks with
  | zero => exact guards_stuck
  | succ fuel ih =>
    refine guards_bind (skipWhile_guards _) fun _ ↦ guards_bind (startsComment_guards _) fun line ↦ ?_
    split
    · exact guards_bind (skipWhile_guards _) fun _ ↦ ih toks
    refine guards_bind (startsComment_guards _) fun block ↦ ?_
    split
    · exact guards_bind blockComment_guards fun _ ↦ ih toks
    split
    · exact guards_failWith id
    refine guards_bind (byteAt_guards 0) fun c ↦ ?_
    split
    · exact guards_pure _
    · exact guards_bind (lexToken_guards c) fun t ↦ ih _

end Lexer

/-! ### The parser -/

/-- A write through `NULL`. -/
def ParseEvent.ThroughNull : ParseEvent → Prop
  | put _ null _ => null = true
  | _ => False

/-- An error. -/
def ParseEvent.IsError : ParseEvent → Prop
  | perr _ => True
  | setErr _ => True
  | _ => False

/-- What the parser does about `NULL`. -/
def parseCare : Care ParseRequest ParseEvent where
  handling
    | .node => .checked
    | .defaultNode => .ignored
    | .array .callArgs => .unchecked
    | .array _ => .checked
  harm := ParseEvent.ThroughNull
  error := ParseEvent.IsError

section Parser

variable {toks : ℕ → Tok} {fuel loops : ℕ}

theorem cur_guards {R : Tok → Tok → Prop} : Guards parseCare R (cur toks) :=
  guards_bind guards_pos fun _ ↦ guards_bind (guards_report id) fun _ ↦ guards_pure _

theorem accept_guards {R : Bool → Bool → Prop} (t : Tok) : Guards parseCare R (accept toks t) := by
  refine guards_bind cur_guards fun c ↦ ?_
  split
  · exact guards_bind (guards_advance 1) fun _ ↦ guards_pure true
  · exact guards_pure false

theorem expect_guards {R : Unit → Unit → Prop} (t : Tok) (what : ParseError) :
    Guards parseCare R (expect toks t what) := by
  refine guards_bind cur_guards fun c ↦ ?_
  split
  · exact guards_advance 1
  · exact guards_failWith id

theorem expect_ends (t : Tok) (what : ParseError) (i : ℕ) :
    (expect toks t what i).Always (fun e ↦ ¬ parseCare.harm e) fun x ↦ x.1 ≠ .stuck := by
  refine ⟨id, ?_⟩
  change Always _ _ ((if toks i = t then advance 1 else failWith (.perr what) : Parse Unit) i)
  split
  · rintro ⟨⟩
  · exact ⟨id, by rintro ⟨⟩⟩

theorem semiOk_guards {R : Unit → Unit → Prop} : Guards parseCare R (semiOk toks) := by
  refine guards_bind (accept_guards _) fun semi ↦ ?_
  split
  · exact guards_pure ()
  · refine guards_bind cur_guards fun c ↦ ?_
    split
    · exact guards_pure ()
    · exact guards_failWith id

theorem newAst_guards {R : Unit → Unit → Prop} : Guards parseCare R newAst :=
  guards_checked rfl (guards_pure ()) fun i ↦ givesUp_failWith trivial id i

theorem checkedArray_guards {R : Unit → Unit → Prop} {arr : NodeArray} (memory : ParseError)
    (allocated : Bool) (harr : parseCare.handling (.array arr) = .checked) :
    Guards parseCare R (checkedArray arr memory allocated) := by
  unfold checkedArray
  split
  · exact guards_pure ()
  · exact guards_checked harr (guards_pure ()) fun i ↦ givesUp_failWith trivial id i

theorem leaf_guards {R : Expr → Expr → Prop} (e : Expr) : Guards parseCare R (leaf e) :=
  guards_checked rfl (guards_bind (guards_advance 1) fun _ ↦ guards_pure e)
    fun i ↦ givesUp_failWith trivial id (i + 1)

section Expressions

variable {expr : Parse Expr} {R : Expr → Expr → Prop}

theorem parsePrimary_guards (hexpr : Guards parseCare Never expr) :
    Guards parseCare R (parsePrimary toks expr) := by
  refine guards_bind cur_guards fun t ↦ ?_
  cases t
  case num => exact leaf_guards _
  case str => exact leaf_guards _
  case kwTrue => exact leaf_guards _
  case kwFalse => exact leaf_guards _
  case ident => exact leaf_guards _
  case lp =>
    refine guards_bind (guards_advance 1) fun _ ↦ guards_attempt hexpr ?_ ?_
    · intro e
      refine guards_bind (expect_guards _ _) fun _ ↦ ?_
      cases e with
      | some e => exact guards_pure e
      | none => exact guards_fail
    · -- behind a parenthesis without an expression there are no requests
      intro i
      refine (expect_ends _ _ i).bind ?_
      rintro ⟨_ | _ | _, j⟩ hne
      · exact rfl
      · exact rfl
      · exact absurd rfl hne
  all_goals exact guards_failWith id

theorem argLoop_guards {R : List Expr → List Expr → Prop} (hexpr : Guards parseCare Never expr)
    (allocated : Bool) (args : List Expr) :
    Guards parseCare R (argLoop toks expr fuel allocated args) := by
  induction fuel generalizing allocated args with
  | zero => exact guards_stuck
  | succ fuel ih =>
    refine guards_bind hexpr fun arg ↦ ?_
    split
    · exact guards_failWith id
    have hwrite : Guards parseCare R (do
        report (.put .callArgs (!true) args.length)
        let more ← accept toks .comma
        if more then argLoop toks expr fuel true (args ++ [arg]) else pure (args ++ [arg])) := by
      refine guards_bind (guards_report Bool.false_ne_true) fun _ ↦ ?_
      refine guards_bind (accept_guards _) fun more ↦ ?_
      split
      · exact ih _ _
      · exact guards_pure _
    cases allocated with
    | true => exact hwrite
    | false => exact guards_unchecked rfl hwrite fun i ↦ .inl rfl

theorem parseArgs_guards {R : List Expr → List Expr → Prop} (hexpr : Guards parseCare Never expr) :
    Guards parseCare R (parseArgs toks expr fuel) := by
  refine guards_bind cur_guards fun c ↦ ?_
  split
  · exact guards_pure []
  · exact argLoop_guards hexpr false []

theorem postfixLoop_guards (hexpr : Guards parseCare Never expr) (e : Expr) :
    Guards parseCare R (postfixLoop toks expr fuel e) := by
  induction fuel generalizing e with
  | zero => exact guards_stuck
  | succ fuel ih =>
    refine guards_bind cur_guards fun c ↦ ?_
    split_ifs
    · refine guards_bind (guards_advance 1) fun _ ↦ guards_bind newAst_guards fun _ ↦ ?_
      cases e.varName with
      | none => exact guards_failWith id
      | some f =>
        refine guards_bind (parseArgs_guards hexpr) fun args ↦ ?_
        exact guards_bind (expect_guards _ _) fun _ ↦ ih _
    · refine guards_bind (guards_advance 1) fun _ ↦ ?_
      cases e.varName with
      | none => exact guards_failWith id
      | some x => exact guards_bind newAst_guards fun _ ↦ ih _
    · exact guards_pure e

theorem parsePostfix_guards (hexpr : Guards parseCare Never expr) :
    Guards parseCare R (parsePostfix toks expr fuel) :=
  guards_bind (parsePrimary_guards hexpr) fun e ↦ postfixLoop_guards hexpr e

theorem unaryNode_guards (t : Tok) (a : Expr) : Guards parseCare R (unaryNode t a) := by
  unfold unaryNode
  split_ifs
  · exact guards_pure _
  · exact guards_pure _
  · exact guards_pure _
  · cases a.varName with
    | none => exact guards_failWith id
    | some x => exact guards_pure _

theorem parseUnary_guards (hexpr : Guards parseCare Never expr) :
    Guards parseCare R (parseUnary toks expr loops fuel) := by
  induction fuel generalizing R with
  | zero => exact guards_stuck
  | succ fuel ih =>
    refine guards_bind cur_guards fun t ↦ ?_
    split
    · refine guards_bind (guards_advance 1) fun _ ↦ guards_bind newAst_guards fun _ ↦ ?_
      exact guards_bind ih fun a ↦ unaryNode_guards t a
    · exact parsePostfix_guards hexpr

theorem parseBinop_guards {higher : Parse Expr} (ops : Operators)
    (hhigher : Guards parseCare Never higher) :
    Guards parseCare R (parseBinop toks higher ops fuel) := by
  have hloop (fuel : ℕ) (lhs : Expr) : Guards parseCare R (binopLoop toks higher ops fuel lhs) := by
    induction fuel generalizing lhs with
    | zero => exact guards_stuck
    | succ fuel ih =>
      refine guards_bind cur_guards fun t ↦ ?_
      cases ops.lookup t with
      | none => exact guards_pure lhs
      | some node =>
        refine guards_bind (guards_advance 1) fun _ ↦ guards_bind hhigher fun rhs ↦ ?_
        exact guards_bind newAst_guards fun _ ↦ ih _
  exact guards_bind hhigher fun lhs ↦ hloop fuel lhs

theorem parseOror_guards (hexpr : Guards parseCare Never expr) :
    Guards parseCare R (parseOror toks expr fuel) := by
  have hmultiplicative : Guards parseCare Never (parseMultiplicative toks expr fuel) :=
    parseBinop_guards _ (parseUnary_guards hexpr)
  have hrelational : Guards parseCare Never (parseRelational toks expr fuel) :=
    parseBinop_guards _ <| parseBinop_guards _ <| parseBinop_guards _ hmultiplicative
  have hbor : Guards parseCare Never (parseBor toks expr fuel) :=
    parseBinop_guards _ <| parseBinop_guards _ <| parseBinop_guards _ <|
      parseBinop_guards _ hrelational
  exact parseBinop_guards _ (parseBinop_guards _ hbor)

theorem parseAssign_guards (hexpr : Guards parseCare Never expr) :
    Guards parseCare R (parseAssign toks expr loops fuel) := by
  induction fuel generalizing R with
  | zero => exact guards_stuck
  | succ fuel ih =>
    refine guards_bind (parseOror_guards hexpr) fun lhs ↦ guards_bind cur_guards fun t ↦ ?_
    cases assignOps.lookup t with
    | none => exact guards_pure lhs
    | some op =>
      cases lhs.varName with
      | none => exact guards_failWith id
      | some x =>
        refine guards_bind (guards_advance 1) fun _ ↦ guards_bind ih fun rhs ↦ ?_
        exact guards_bind newAst_guards fun _ ↦ guards_pure _

end Expressions

theorem parseExpr_guards {R : Expr → Expr → Prop} : Guards parseCare R (parseExpr toks fuel) := by
  induction fuel generalizing R with
  | zero => exact guards_stuck
  | succ fuel ih => exact parseAssign_guards ih

section Statements

variable {expr : Parse Expr} {stmt : Parse Stmt}

theorem isEmpty_congr {α : Type} {l l' : List α} (h : l.length = l'.length) :
    l.isEmpty = l'.isEmpty := by
  cases l with
  | nil =>
    cases l' with
    | nil => rfl
    | cons b l' => cases h
  | cons a l =>
    cases l' with
    | nil => cases h
    | cons b l' => rfl

theorem length_concat_congr {α : Type} {l l' : List α} (h : l.length = l'.length) (a b : α) :
    (l ++ [a]).length = (l' ++ [b]).length := by
  rw [List.length_append, List.length_append, h]
  rfl

/-- How a block goes on depends only on the number of its statements so far. -/
theorem blockLoop_parallel {body body' : List Stmt} (h : body.length = body'.length) :
    Parallel Any (blockLoop toks stmt fuel body) (blockLoop toks stmt fuel body') := by
  induction fuel generalizing body body' with
  | zero => exact parallel_stuck
  | succ fuel ih =>
    refine parallel_same (cur toks) fun c ↦ ?_
    split_ifs
    · exact parallel_same (advance 1) fun _ ↦ parallel_pure trivial
    · exact parallel_failWith
    · refine parallel_same stmt fun s ↦ ?_
      rw [isEmpty_congr h, h]
      refine parallel_same _ fun _ ↦ parallel_same _ fun _ ↦ ?_
      exact ih (length_concat_congr h s s)

theorem blockLoop_guards (hstmt : Guards parseCare Any stmt) (body : List Stmt) :
    Guards parseCare Any (blockLoop toks stmt fuel body) := by
  induction fuel generalizing body with
  | zero => exact guards_stuck
  | succ fuel ih =>
    refine guards_bind cur_guards fun c ↦ ?_
    split_ifs
    · exact guards_bind (guards_advance 1) fun _ ↦ guards_pure body
    · exact guards_failWith id
    · refine hstmt.bind (fun s ↦ ?_) fun s s' _ ↦ ?_
      · refine guards_bind (checkedArray_guards _ _ rfl) fun _ ↦ ?_
        exact guards_bind (guards_report Bool.false_ne_true) fun _ ↦ ih _
      · refine parallel_same _ fun _ ↦ parallel_same _ fun _ ↦ ?_
        exact blockLoop_parallel (length_concat_congr rfl s s')

theorem parseBlock_guards (hstmt : Guards parseCare Any stmt) :
    Guards parseCare Any (parseBlock toks stmt fuel) := by
  refine guards_bind newAst_guards fun _ ↦ guards_bind (expect_guards _ _) fun _ ↦ ?_
  exact blockLoop_guards hstmt []

/-- The refusal of the node of a default value is ignored. -/
theorem defaultLeaf_guards (v : U64) : Guards parseCare Any (defaultLeaf v) := by
  refine guards_ignored rfl (guards_bind (guards_advance 1) fun _ ↦ guards_pure _) fun i ↦ ?_
  exact ⟨.perr .astMemory, .done (.ok none, i + 1), rfl, trivial, id, .done (.ok trivial _)⟩

theorem optionalDefault_guards : Guards parseCare Any (optionalDefault toks) := by
  refine guards_bind (accept_guards _) fun eq ↦ ?_
  split
  · refine guards_bind cur_guards fun t ↦ ?_
    cases t
    case num v => exact defaultLeaf_guards v
    case kwTrue => exact defaultLeaf_guards 1
    case kwFalse => exact defaultLeaf_guards 0
    all_goals exact guards_failWith id
  · exact guards_pure none

variable (toks fuel) in
/-- The rest of a round of `paramLoop`, behind the default value. -/
def paramRest (ps : List Param) (p : Param) : Parse Params := do
  checkedArray .params .paramsMemory (!ps.isEmpty)
  report (.put .params false ps.length)
  if hroom : ps.length + 1 < nocMaxArgs then do
    let more ← accept toks .comma
    if more then paramLoop toks fuel (ps ++ [p])
    else pure ⟨ps ++ [p], length_concat_le hroom p⟩
  else failWith (.perr .tooManyParameters)

theorem paramRest_parallel {ps ps' : List Param} {p p' : Param} (h : ps.length = ps'.length)
    (hnext : Parallel Any (paramLoop toks fuel (ps ++ [p])) (paramLoop toks fuel (ps' ++ [p']))) :
    Parallel Any (paramRest toks fuel ps p) (paramRest toks fuel ps' p') := by
  unfold paramRest
  rw [isEmpty_congr h]
  refine parallel_same _ fun _ ↦ ?_
  have hput : Parallel Any (report (.put .params false ps.length) : Parse Unit)
      (report (.put .params false ps'.length)) := h ▸ parallel_self _
  refine parallel_bind hput fun _ _ _ ↦ ?_
  by_cases hroom : ps'.length + 1 < nocMaxArgs
  · rw [dif_pos (h ▸ hroom), dif_pos hroom]
    refine parallel_same _ fun more ↦ ?_
    split
    · exact hnext
    · exact parallel_pure trivial
  · rw [dif_neg (h ▸ hroom), dif_neg hroom]
    exact parallel_failWith

/-- How the parameters go on depends only on their number so far. -/
theorem paramLoop_parallel {ps ps' : List Param} (h : ps.length = ps'.length) :
    Parallel Any (paramLoop toks fuel ps) (paramLoop toks fuel ps') := by
  induction fuel generalizing ps ps' with
  | zero => exact parallel_stuck
  | succ fuel ih =>
    refine parallel_same (cur toks) fun t ↦ ?_
    cases t
    case type type =>
      refine parallel_same (advance 1) fun _ ↦ parallel_same (cur toks) fun c ↦ ?_
      cases c
      case ident name =>
        refine parallel_same newAst fun _ ↦ parallel_same (advance 1) fun _ ↦ ?_
        refine parallel_same (optionalDefault toks) fun default ↦ ?_
        exact paramRest_parallel h (ih (length_concat_congr h _ _))
      all_goals exact parallel_failWith
    all_goals exact parallel_failWith

theorem paramLoop_guards (ps : List Param) : Guards parseCare Any (paramLoop toks fuel ps) := by
  induction fuel generalizing ps with
  | zero => exact guards_stuck
  | succ fuel ih =>
    have hrest (p : Param) : Guards parseCare Any (paramRest toks fuel ps p) := by
      refine guards_bind (checkedArray_guards _ _ rfl) fun _ ↦ ?_
      refine guards_bind (guards_report Bool.false_ne_true) fun _ ↦ ?_
      split
      · refine guards_bind (accept_guards _) fun more ↦ ?_
        split
        · exact ih _
        · exact guards_pure _
      · exact guards_failWith id
    refine guards_bind cur_guards fun t ↦ ?_
    cases t
    case type type =>
      refine guards_bind (guards_advance 1) fun _ ↦ guards_bind cur_guards fun c ↦ ?_
      cases c
      case ident name =>
        refine guards_bind newAst_guards fun _ ↦ guards_bind (guards_advance 1) fun _ ↦ ?_
        refine optionalDefault_guards.bind (fun default ↦ hrest ⟨name, type, default⟩) ?_
        intro default default' _
        exact paramRest_parallel rfl (paramLoop_parallel (length_concat_congr rfl _ _))
      all_goals exact guards_failWith id
    all_goals exact guards_failWith id

theorem parseParams_guards : Guards parseCare Any (parseParams toks fuel) := by
  refine guards_bind (expect_guards _ _) fun _ ↦ guards_bind (accept_guards _) fun closed ↦ ?_
  split
  · exact guards_pure _
  · refine (paramLoop_guards []).bind (fun ps ↦ ?_) fun ps ps' _ ↦ ?_
    · exact guards_bind (expect_guards _ _) fun _ ↦ guards_pure ps
    · exact parallel_same _ fun _ ↦ parallel_pure trivial

theorem optionalInit_guards {R : Option Expr → Option Expr → Prop}
    (hexpr : Guards parseCare Never expr) : Guards parseCare R (optionalInit toks expr) := by
  refine guards_bind (accept_guards _) fun eq ↦ ?_
  split
  · exact guards_bind hexpr fun e ↦ guards_pure _
  · exact guards_pure none

theorem optionalExpr_guards {R : Option Expr → Option Expr → Prop} (stop : Tok)
    (hexpr : Guards parseCare Never expr) : Guards parseCare R (optionalExpr toks expr stop) := by
  refine guards_bind cur_guards fun c ↦ ?_
  split
  · exact guards_pure none
  · exact guards_bind hexpr fun e ↦ guards_pure _

theorem parseDeclaration_guards (hexpr : Guards parseCare Never expr)
    (hstmt : Guards parseCare Any stmt) (type : NType) :
    Guards parseCare Any (parseDeclaration toks expr stmt fuel type) := by
  refine guards_bind (guards_advance 1) fun _ ↦ guards_bind cur_guards fun t ↦ ?_
  cases t
  case ident name =>
    refine guards_bind (guards_advance 1) fun _ ↦ guards_bind cur_guards fun c ↦ ?_
    split
    · refine guards_bind newAst_guards fun _ ↦ ?_
      refine parseParams_guards.bind (fun params ↦ ?_) fun params params' _ ↦ ?_
      · refine (parseBlock_guards hstmt).bind (fun body ↦ guards_pure _) fun _ _ _ ↦ ?_
        exact parallel_pure trivial
      · exact parallel_same _ fun body ↦ parallel_pure trivial
    · refine guards_bind newAst_guards fun _ ↦ guards_bind (optionalInit_guards hexpr) fun init ↦ ?_
      exact guards_bind semiOk_guards fun _ ↦ guards_pure _
  all_goals exact guards_failWith id

theorem parseIf_guards (hexpr : Guards parseCare Never expr) (hstmt : Guards parseCare Any stmt) :
    Guards parseCare Any (parseIf toks expr stmt) := by
  refine guards_bind (guards_advance 1) fun _ ↦ guards_bind newAst_guards fun _ ↦ ?_
  refine guards_bind (expect_guards _ _) fun _ ↦ guards_bind hexpr fun c ↦ ?_
  refine guards_bind (expect_guards _ _) fun _ ↦ hstmt.bind (fun t ↦ ?_) fun t t' _ ↦ ?_
  · refine guards_bind (accept_guards _) fun otherwise ↦ ?_
    split
    · exact hstmt.bind (fun e ↦ guards_pure _) fun _ _ _ ↦ parallel_pure trivial
    · exact guards_pure _
  · refine parallel_same _ fun otherwise ↦ ?_
    split
    · exact parallel_same stmt fun e ↦ parallel_pure trivial
    · exact parallel_pure trivial

theorem parseWhile_guards (hexpr : Guards parseCare Never expr) (hstmt : Guards parseCare Any stmt) :
    Guards parseCare Any (parseWhile toks expr stmt) := by
  refine guards_bind (guards_advance 1) fun _ ↦ guards_bind newAst_guards fun _ ↦ ?_
  refine guards_bind (expect_guards _ _) fun _ ↦ guards_bind hexpr fun c ↦ ?_
  refine guards_bind (expect_guards _ _) fun _ ↦ ?_
  exact hstmt.bind (fun body ↦ guards_pure _) fun _ _ _ ↦ parallel_pure trivial

theorem parseForInit_guards {R : ForInit → ForInit → Prop} (hexpr : Guards parseCare Never expr) :
    Guards parseCare R (parseForInit toks expr) := by
  have hother : Guards parseCare R (do
      let e ← expr
      expect toks .semi .expectedSemi
      pure (.expr e)) :=
    guards_bind hexpr fun e ↦ guards_bind (expect_guards _ _) fun _ ↦ guards_pure _
  refine guards_bind cur_guards fun t ↦ ?_
  cases t
  case semi => exact guards_bind (guards_advance 1) fun _ ↦ guards_pure _
  case type type =>
    refine guards_bind (guards_advance 1) fun _ ↦ guards_bind cur_guards fun c ↦ ?_
    cases c
    case ident name =>
      refine guards_bind newAst_guards fun _ ↦ guards_bind (guards_advance 1) fun _ ↦ ?_
      refine guards_bind (optionalInit_guards hexpr) fun init ↦ ?_
      exact guards_bind (expect_guards _ _) fun _ ↦ guards_pure _
    all_goals exact guards_failWith id
  all_goals exact hother

theorem parseFor_guards (hexpr : Guards parseCare Never expr) (hstmt : Guards parseCare Any stmt) :
    Guards parseCare Any (parseFor toks expr stmt) := by
  refine guards_bind (guards_advance 1) fun _ ↦ guards_bind newAst_guards fun _ ↦ ?_
  refine guards_bind (expect_guards _ _) fun _ ↦ guards_bind (parseForInit_guards hexpr) fun init ↦ ?_
  refine guards_bind (optionalExpr_guards _ hexpr) fun c ↦ guards_bind (expect_guards _ _) fun _ ↦ ?_
  refine guards_bind (optionalExpr_guards _ hexpr) fun post ↦ ?_
  refine guards_bind (expect_guards _ _) fun _ ↦ ?_
  exact hstmt.bind (fun body ↦ guards_pure _) fun _ _ _ ↦ parallel_pure trivial

theorem parseReturn_guards (hexpr : Guards parseCare Never expr) :
    Guards parseCare Any (parseReturn toks expr) := by
  refine guards_bind (guards_advance 1) fun _ ↦ guards_bind newAst_guards fun _ ↦ ?_
  refine guards_bind (optionalExpr_guards _ hexpr) fun e ↦ ?_
  exact guards_bind semiOk_guards fun _ ↦ guards_pure _

theorem parseStmtExpr_guards (hexpr : Guards parseCare Never expr) :
    Guards parseCare Any (parseStmtExpr toks expr) := by
  refine guards_bind newAst_guards fun _ ↦ guards_bind hexpr fun e ↦ ?_
  exact guards_bind semiOk_guards fun _ ↦ guards_pure _

end Statements

theorem parseStmt_guards : Guards parseCare Any (parseStmt toks fuel) := by
  induction fuel with
  | zero => exact guards_stuck
  | succ fuel ih =>
    refine guards_bind cur_guards fun t ↦ ?_
    cases t
    case type type => exact parseDeclaration_guards parseExpr_guards ih type
    case lb =>
      refine (parseBlock_guards ih).bind (fun body ↦ guards_pure _) fun _ _ _ ↦ ?_
      exact parallel_pure trivial
    case kwIf => exact parseIf_guards parseExpr_guards ih
    case kwWhile => exact parseWhile_guards parseExpr_guards ih
    case kwFor => exact parseFor_guards parseExpr_guards ih
    case kwReturn => exact parseReturn_guards parseExpr_guards
    case eof => exact guards_failWith id
    all_goals exact parseStmtExpr_guards parseExpr_guards

theorem stmtLoop_parallel {stmt : Parse Stmt} {stmts stmts' : List Stmt}
    (h : stmts.length = stmts'.length) :
    Parallel Any (stmtLoop toks stmt fuel stmts) (stmtLoop toks stmt fuel stmts') := by
  induction fuel generalizing stmts stmts' with
  | zero => exact parallel_stuck
  | succ fuel ih =>
    refine parallel_same (cur toks) fun c ↦ ?_
    split
    · exact parallel_pure trivial
    · refine parallel_same stmt fun s ↦ ?_
      rw [h]
      refine parallel_same _ fun _ ↦ ?_
      split
      · exact parallel_failWith
      · exact ih (length_concat_congr h s s)

theorem stmtLoop_guards {stmt : Parse Stmt} (hstmt : Guards parseCare Any stmt)
    (stmts : List Stmt) : Guards parseCare Any (stmtLoop toks stmt fuel stmts) := by
  induction fuel generalizing stmts with
  | zero => exact guards_stuck
  | succ fuel ih =>
    refine guards_bind cur_guards fun c ↦ ?_
    split
    · exact guards_pure stmts
    · refine hstmt.bind (fun s ↦ ?_) fun s s' _ ↦ ?_
      · refine guards_bind (guards_report Bool.false_ne_true) fun _ ↦ ?_
        split
        · exact guards_failWith id
        · exact ih _
      · refine parallel_same _ fun _ ↦ ?_
        split
        · exact parallel_failWith
        · exact stmtLoop_parallel (length_concat_congr rfl s s')

theorem nocParse_guards : Guards parseCare Any (nocParse toks fuel) :=
  guards_checked rfl (stmtLoop_guards parseStmt_guards []) fun i ↦ givesUp_failWith trivial id i

end Parser

/-! ### Exhaustion -/

/-- The lexer is spared unless the buffer of a string is the first allocation that is refused. -/
theorem spared_lexer_iff {mem : ℕ → Byte} {maxtoks fuel : ℕ} {a : Arena} :
    Spared lexCare (Arena.answer LexRequest.size) a (nocLex mem maxtoks fuel 0) ↔
      firstRefused lexCare (Arena.answer LexRequest.size) a (nocLex mem maxtoks fuel 0).demands ≠
        some .string := by
  have hnone : ∀ r, lexCare.handling r ≠ .ignored := by
    rintro (len | _ | _) ⟨⟩
  unfold Spared
  cases hfirst : firstRefused lexCare (Arena.answer LexRequest.size) a
      (nocLex mem maxtoks fuel 0).demands with
  | none => exact iff_of_true (.inl (meets_of_firstRefused (fun r _ ↦ hnone r) hfirst)) nofun
  | some r =>
    cases r with
    | identifier len => exact iff_of_true rfl nofun
    | string => exact iff_of_false nofun (fun h ↦ h rfl)
    | message => exact iff_of_true rfl nofun

/-- The parser is spared unless the arguments of a call are the first allocation that is refused, or
nodes of default values are the only ones and the tokens are a program. -/
theorem spared_parser_iff {toks : ℕ → Tok} {n fuel : ℕ} {a : Arena} (htoks : TokenArray toks n)
    (hfuel : n < fuel) :
    Spared parseCare (Arena.answer ParseRequest.size) a (nocParse toks fuel 0) ↔
      firstRefused parseCare (Arena.answer ParseRequest.size) a (nocParse toks fuel 0).demands ≠
          some (.array .callArgs) ∧
        (firstRefused parseCare (Arena.answer ParseRequest.size) a (nocParse toks fuel 0).demands =
            none →
          Meets (Arena.answer ParseRequest.size) a (nocParse toks fuel 0).demands ∨
            ¬ ∃ ss, Program toks ss n) := by
  rw [← nocParse_result_eq_null_iff htoks hfuel]
  unfold Spared
  cases hfirst : firstRefused parseCare (Arena.answer ParseRequest.size) a
      (nocParse toks fuel 0).demands with
  | none => exact ⟨fun h ↦ ⟨nofun, fun _ ↦ h⟩, fun h ↦ h.2 rfl⟩
  | some r =>
    have hheeded := handling_firstRefused hfirst
    cases r with
    | node => exact iff_of_true rfl ⟨nofun, nofun⟩
    | defaultNode => exact absurd rfl hheeded
    | array arr =>
      cases arr with
      | callArgs => exact iff_of_false nofun (fun h ↦ h.1 rfl)
      | stmts => exact iff_of_true rfl ⟨nofun, nofun⟩
      | block => exact iff_of_true rfl ⟨nofun, nofun⟩
      | params => exact iff_of_true rfl ⟨nofun, nofun⟩

/-- A `NULL` from the arena ends the lexer and the parser with an error before it is written through,
exactly if the first one, nodes of default values apart, is neither the buffer of a string nor the
arguments of a call, and if not only nodes of default values are missing from a program. -/
theorem exhaustion_reported_iff (fuel : ℕ) (a : Arena) :
    (∀ mem maxtoks, (runLexer mem maxtoks fuel a).value.1 ≠ .stuck →
      (Reported lexCare (runLexer mem maxtoks fuel a) ↔
        firstRefused lexCare (Arena.answer LexRequest.size) a (nocLex mem maxtoks fuel 0).demands ≠
          some .string)) ∧
    ∀ toks n, TokenArray toks n → n < fuel →
      (Reported parseCare (runParser toks fuel a) ↔
        firstRefused parseCare (Arena.answer ParseRequest.size) a (nocParse toks fuel 0).demands ≠
            some (.array .callArgs) ∧
          (firstRefused parseCare (Arena.answer ParseRequest.size) a (nocParse toks fuel 0).demands =
              none →
            Meets (Arena.answer ParseRequest.size) a (nocParse toks fuel 0).demands ∨
              ¬ ∃ ss, Program toks ss n)) := by
  constructor
  · intro mem maxtoks hends
    have hguarded : Guarded lexCare Any (nocLex mem maxtoks fuel 0) := lexLoop_guards maxtoks [] 0
    exact (hguarded.reported_iff hends).trans spared_lexer_iff
  · intro toks n htoks hfuel
    have hguarded : Guarded parseCare Any (nocParse toks fuel 0) := nocParse_guards 0
    have hends := (Always.run (nocParse_reaches htoks hfuel) (Arena.answer ParseRequest.size) a).1
    exact (hguarded.reported_iff hends.not_stuck).trans (spared_parser_iff htoks hfuel)

/-- An arena without room. -/
def fullArena : Arena := ⟨0x100000#64, 12288#64, 12288#64⟩

/-- A name cannot be stored, and no list of statements. -/
theorem exhaustion_reported_name :
    Reported lexCare (runLexer (memOf (cstr "x")) nocMaxToks 8 fullArena) ∧
      Reported parseCare (runParser (fun i ↦ [Tok.ident (cstr "x")].getD i .eof) 8 fullArena) := by
  constructor
  · refine ((exhaustion_reported_iff _ _).1 _ _ ?_).mpr ?_
    · decide +kernel
    · decide +kernel
  · refine ((exhaustion_reported_iff 8 _).2 _ 1 ⟨by decide, rfl, ?_⟩ (by decide)).mpr ?_
    · intro i hi
      interval_cases i
      rintro ⟨⟩
    · have hfirst : firstRefused parseCare (Arena.answer ParseRequest.size) fullArena
          (nocParse (fun i ↦ [Tok.ident (cstr "x")].getD i .eof) 8 0).demands =
            some (.array .stmts) := by decide +kernel
      rw [hfirst]
      exact ⟨nofun, nofun⟩

/-- A string is written through `NULL`, and so are the arguments of a call. -/
theorem exhaustion_written_through_null :
    (¬ ∀ mem maxtoks fuel a, (runLexer mem maxtoks fuel a).value.1 ≠ .stuck →
      Reported lexCare (runLexer mem maxtoks fuel a)) ∧
    ¬ ∀ toks n fuel a, TokenArray toks n → n < fuel →
      Reported parseCare (runParser toks fuel a) := by
  constructor
  · intro hall
    have hput : .did (.put true 0) ∈ (runLexer (memOf (cstr "\"a\"")) nocMaxToks 8 fullArena).acts := by
      decide +kernel
    exact (hall _ _ _ _ (by decide +kernel)).harmless _ hput rfl
  · intro hall
    have hput : .did (.put .callArgs true 0) ∈
        (runParser (fun i ↦ [Tok.ident (cstr "f"), .lp, .num 1, .rp].getD i .eof) 8
          ⟨0x100000#64, 0#64, 82240#64⟩).acts := by
      decide +kernel
    refine (hall _ 4 _ _ ⟨by decide, rfl, ?_⟩ (by decide)).harmless _ hput rfl
    intro i hi
    interval_cases i
    all_goals rintro ⟨⟩

end NoOsKernel.Noc
