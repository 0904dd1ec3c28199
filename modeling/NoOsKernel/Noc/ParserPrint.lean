import NoOsKernel.Noc.ParserBounds

/-!
# Parsing inverts printing

Expressions are printed with parentheses only around an operand whose operator binds weaker than its
place allows: the left operand of an operator may be of its own rank, the right one may not. The
parser makes the tree of the expression from its tokens. The induction is on the expression, with its
place: what the functions of the parser from one rank on make of it, and what the loop over the
operators of a rank is started with when they are.
-/

set_option autoImplicit false
set_option relaxedAutoImplicit false

namespace NoOsKernel.Noc

open Lib Scan

/-- The operators with two operands. -/
inductive Operator where
  | strict (op : BinOp)
  | logic (isAnd : Bool)
  deriving DecidableEq

namespace Operator

/-- All of them. -/
def all : List Operator :=
  [.strict .add, .strict .sub, .strict .mul, .strict .div, .strict .mod, .strict .eq, .strict .ne,
    .strict .lt, .strict .le, .strict .gt, .strict .ge, .strict .band, .strict .bor, .strict .bxor,
    .strict .shl, .strict .shr, .logic true, .logic false]

/-- The token. -/
def token : Operator → Tok
  | .strict .add => .plus
  | .strict .sub => .minus
  | .strict .mul => .star
  | .strict .div => .slash
  | .strict .mod => .pct
  | .strict .eq => .eqeq
  | .strict .ne => .neq
  | .strict .lt => .lt
  | .strict .le => .le
  | .strict .gt => .gt
  | .strict .ge => .ge
  | .strict .band => .amp
  | .strict .bor => .pipe
  | .strict .bxor => .caret
  | .strict .shl => .shl
  | .strict .shr => .shr
  | .logic true => .andand
  | .logic false => .oror

/-- The documented precedence: the place in the table of the operators, where calls and postfix
operators are `0` and unary operators are `1`. -/
def rank : Operator → ℕ
  | .strict .mul => 2
  | .strict .div => 2
  | .strict .mod => 2
  | .strict .add => 3
  | .strict .sub => 3
  | .strict .shl => 4
  | .strict .shr => 4
  | .strict .lt => 5
  | .strict .le => 5
  | .strict .gt => 5
  | .strict .ge => 5
  | .strict .eq => 6
  | .strict .ne => 6
  | .strict .band => 7
  | .strict .bxor => 8
  | .strict .bor => 9
  | .logic true => 10
  | .logic false => 11

/-- The node over two operands. -/
def node : Operator → Expr → Expr → Expr
  | .strict op => .bin op
  | .logic isAnd => .logic isAnd

/-- The operators of one rank, as `parse_binop` has them. -/
def ofRank (k : ℕ) : Operators := (all.filter fun op ↦ op.rank = k).map fun op ↦ (op.token, op.node)

theorem mem_all (op : Operator) : op ∈ all := by
  rcases op with (_ | _ | _ | _ | _ | _ | _ | _ | _ | _ | _ | _ | _ | _ | _ | _) | (_ | _) <;> decide

theorem two_le_rank (op : Operator) : 2 ≤ op.rank := by
  have hall : ∀ op ∈ all, 2 ≤ rank op := by decide
  exact hall op (mem_all op)

theorem rank_le (op : Operator) : op.rank ≤ 11 := by
  have hall : ∀ op ∈ all, rank op ≤ 11 := by decide
  exact hall op (mem_all op)

theorem rank_of_token {op op' : Operator} (h : op.token = op'.token) : op.rank = op'.rank := by
  have hall : ∀ op ∈ all, ∀ op' ∈ all, token op = op'.token → op.rank = op'.rank := by
    decide +kernel
  exact hall op (mem_all op) op' (mem_all op') h

theorem lookup_token (op : Operator) : (ofRank op.rank).lookup op.token = some op.node := by
  rcases op with (_ | _ | _ | _ | _ | _ | _ | _ | _ | _ | _ | _ | _ | _ | _ | _) | (_ | _) <;> rfl

theorem lookup_eq_none {k : ℕ} {t : Tok} (h : ∀ op : Operator, op.rank = k → t ≠ op.token) :
    (ofRank k).lookup t = none := by
  refine List.lookup_eq_none_iff.mpr fun entry hentry ↦ ?_
  obtain ⟨op, hop, rfl⟩ := List.mem_map.mp hentry
  have hrank : op.rank = k := of_decide_eq_true (List.mem_filter.mp hop).2
  exact bne_iff_ne.mpr (h op hrank)

end Operator

/-- The token of a unary operator. -/
def UnOp.token : UnOp → Tok
  | .neg => .minus
  | .not => .bang
  | .bnot => .tilde

/-- The token of an increment or a decrement. -/
def incToken (plus : Bool) : Tok := if plus then .plusplus else .minusminus

/-- The token of an assignment. -/
def AssignOp.token : AssignOp → Tok
  | .assign => .eq
  | .add => .pluseq
  | .sub => .minuseq
  | .mul => .stareq
  | .div => .slasheq

/-- The expressions that can be written down. -/
inductive Term where
  | num (v : U64)
  | bool (b : Bool)
  | str (s : Name)
  | var (x : Name)
  | call (f : Name) (args : List Term)
  | un (op : UnOp) (a : Term)
  | preinc (x : Name) (plus : Bool)
  | postinc (x : Name) (plus : Bool)
  | bin (op : Operator) (a b : Term)
  | assign (op : AssignOp) (x : Name) (a : Term)

namespace Term

mutual

/-- The tree of an expression. -/
def tree : Term → Expr
  | .num v => .lit v
  | .bool b => .lit (if b then 1 else 0)
  | .str s => .str s
  | .var x => .var x
  | .call f args => .call f (trees args)
  | .un op a => .un op a.tree
  | .preinc x plus => .preinc x plus
  | .postinc x plus => .postinc x plus
  | .bin op a b => op.node a.tree b.tree
  | .assign op x a => .assign op x a.tree

/-- The trees of some expressions. -/
def trees : List Term → List Expr
  | [] => []
  | a :: args => a.tree :: trees args

end

/-- The precedence of the outermost operator. -/
def rank : Term → ℕ
  | .num _ => 0
  | .bool _ => 0
  | .str _ => 0
  | .var _ => 0
  | .call _ _ => 0
  | .un _ _ => 1
  | .preinc _ _ => 1
  | .postinc _ _ => 0
  | .bin op _ _ => op.rank
  | .assign _ _ _ => 12

/-- Parentheses around an operand whose rank is above `most`. -/
def enclose (most rank : ℕ) (ts : List Tok) : List Tok :=
  if most < rank then .lp :: (ts ++ [.rp]) else ts

mutual

/-- The tokens of an expression, with no parentheses around it. -/
def bare : Term → List Tok
  | .num v => [.num v]
  | .bool b => [if b then .kwTrue else .kwFalse]
  | .str s => [.str s]
  | .var x => [.ident x]
  | .call f args => .ident f :: .lp :: (argTokens args ++ [.rp])
  | .un op a => op.token :: enclose 1 a.rank a.bare
  | .preinc x plus => [incToken plus, .ident x]
  | .postinc x plus => [.ident x, incToken plus]
  | .bin op a b => enclose op.rank a.rank a.bare ++ op.token :: enclose (op.rank - 1) b.rank b.bare
  | .assign op x a => .ident x :: op.token :: a.bare

/-- The tokens of the arguments of a call. -/
def argTokens : List Term → List Tok
  | [] => []
  | a :: args => a.bare ++ laterTokens args

/-- The tokens of the arguments behind the first, with their commas. -/
def laterTokens : List Term → List Tok
  | [] => []
  | a :: args => .comma :: (a.bare ++ laterTokens args)

end

/-- The tokens of an expression at a place for operators up to a rank. -/
def print (most : ℕ) (t : Term) : List Tok := enclose most t.rank t.bare

mutual

/-- No call has more arguments than the parser has room for. -/
def CallsFit : Term → Prop
  | .call _ args => args.length ≤ nocMaxArgs ∧ ArgsFit args
  | .un _ a => a.CallsFit
  | .bin _ a b => a.CallsFit ∧ b.CallsFit
  | .assign _ _ a => a.CallsFit
  | _ => True

/-- The same for some expressions. -/
def ArgsFit : List Term → Prop
  | [] => True
  | a :: args => a.CallsFit ∧ ArgsFit args

end

/-- The bytes of the array of the arguments. -/
def arraySize (args : List Term) : ℕ := if args = [] then 0 else roundUp (8 * nocMaxArgs)

mutual

/-- The bytes of the arena the parser takes for an expression: a node each for the expression and the
variable it begins with, and the array of a call. -/
def memory : Term → ℕ
  | .call _ args => 2 * roundUp astSize + arraySize args + argMemory args
  | .un _ a => roundUp astSize + a.memory
  | .preinc _ _ => 2 * roundUp astSize
  | .postinc _ _ => 2 * roundUp astSize
  | .bin _ a b => roundUp astSize + a.memory + b.memory
  | .assign _ _ a => 2 * roundUp astSize + a.memory
  | _ => roundUp astSize

/-- The bytes for some expressions. -/
def argMemory : List Term → ℕ
  | [] => 0
  | a :: args => a.memory + argMemory args

end

theorem rank_le (t : Term) : t.rank ≤ 12 := by
  cases t with
  | bin op a b => exact op.rank_le.trans (by decide)
  | _ => exact Nat.le_of_ble_eq_true rfl

theorem print_eq_bare {t : Term} {most : ℕ} (h : t.rank ≤ most) : t.print most = t.bare :=
  if_neg (Nat.not_lt_of_le h)

theorem print_eq_paren {t : Term} {most : ℕ} (h : most < t.rank) :
    t.print most = .lp :: (t.bare ++ [.rp]) :=
  if_pos h

/-- A place for one rank more prints the same, but for an expression of that rank. -/
theorem print_succ {t : Term} {most : ℕ} (h : t.rank ≠ most + 1) : t.print (most + 1) = t.print most := by
  rcases Nat.lt_or_ge most t.rank with hlt | hle
  · rw [print_eq_paren hlt, print_eq_paren (by omega)]
  · rw [print_eq_bare hle, print_eq_bare (by omega)]

end Term

/-! ### Tokens in the array -/

/-- Some tokens stand from `i` to `j`. -/
def Spans (toks : ℕ → Tok) : ℕ → List Tok → ℕ → Prop
  | i, [], j => i = j
  | i, t :: ts, j => toks i = t ∧ Spans toks (i + 1) ts j

/-- What a token behind an expression is not: a call, a postfix operator, or an operator of a rank up to
`r`. -/
structure Stops (r : ℕ) (t : Tok) : Prop where
  call : t ≠ .lp
  inc (plus : Bool) : t ≠ incToken plus
  binary (op : Operator) : op.rank ≤ r → t ≠ op.token
  assign (op : AssignOp) : 12 ≤ r → t ≠ op.token

variable {toks : ℕ → Tok} {i j f loops fuel r n : ℕ}

theorem spans_append {ts ts' : List Tok} :
    Spans toks i (ts ++ ts') j ↔ ∃ m, Spans toks i ts m ∧ Spans toks m ts' j := by
  induction ts generalizing i with
  | nil => exact ⟨fun h ↦ ⟨i, rfl, h⟩, by rintro ⟨_, rfl, h⟩; exact h⟩
  | cons t ts ih =>
    constructor
    · rintro ⟨ht, hts⟩
      obtain ⟨m, hts, hts'⟩ := ih.mp hts
      exact ⟨m, ⟨ht, hts⟩, hts'⟩
    · rintro ⟨m, ⟨ht, hts⟩, hts'⟩
      exact ⟨ht, ih.mpr ⟨m, hts, hts'⟩⟩

theorem Stops.mono {t : Tok} {r' : ℕ} (h : Stops r t) (hle : r' ≤ r) : Stops r' t :=
  ⟨h.call, h.inc, fun op hop ↦ h.binary op (hop.trans hle), fun op hr ↦ h.assign op (hr.trans hle)⟩

/-- The tokens that end every expression. -/
theorem stops_closing {t : Tok} (ht : t ∈ [Tok.rp, .comma, .eof]) (r : ℕ) : Stops r t where
  call := by
    rintro rfl
    exact absurd ht (by decide)
  inc plus := by
    rintro rfl
    cases plus <;> exact absurd ht (by decide)
  binary op _ := by
    have hall : ∀ op ∈ Operator.all, op.token ∉ [Tok.rp, .comma, .eof] := by decide
    rintro rfl
    exact hall op op.mem_all ht
  assign op _ := by
    rintro rfl
    cases op <;> exact absurd ht (by decide)

/-- An operator ends the operands that are printed for the ranks below its own. -/
theorem stops_operator (op : Operator) : Stops (op.rank - 1) op.token where
  call := by
    have hall : ∀ op ∈ Operator.all, op.token ≠ .lp := by decide
    exact hall op op.mem_all
  inc plus := by
    have hall : ∀ op ∈ Operator.all, ∀ plus, op.token ≠ incToken plus := by decide
    exact hall op op.mem_all plus
  binary op' hop := by
    intro htoken
    have hrank := Operator.rank_of_token htoken
    have hpos := op.two_le_rank
    omega
  assign op' hr := by
    have hle := op.rank_le
    omega

/-! ### The functions of the parser by rank -/

/-- The bytes an allocation takes up. -/
def ParseRequest.taken (r : ParseRequest) : ℕ := roundUp r.size

variable (toks) in
/-- The function of the parser for the operators up to a rank below that of the assignments. -/
def climb (expr : Parse Expr) (loops fuel : ℕ) : ℕ → Parse Expr
  | 0 => parsePostfix toks expr loops
  | 1 => parseUnary toks expr loops fuel
  | r + 2 => parseBinop toks (climb expr loops fuel (r + 1)) (Operator.ofRank (r + 2)) loops

section Primitives

variable {α β : Type} {a : α} {b : β} {t : Tok} {k m : ℕ}

theorem reads_cur {p : Tok → Parse β} (h : ReadsOrStuck ParseRequest.taken (p (toks i)) i b j n) :
    ReadsOrStuck ParseRequest.taken (cur toks >>= p) i b j n :=
  have hcur : Does (fun _ ↦ True) (cur toks) i (toks i) i := cur_does trivial
  hcur.readsOrStuck_bind h

theorem reads_advance {p : Unit → Parse β}
    (h : ReadsOrStuck ParseRequest.taken (p ()) (i + k) b j n) :
    ReadsOrStuck ParseRequest.taken (advance k >>= p) i b j n :=
  (does_advance (fun _ ↦ True) k i).readsOrStuck_bind h

theorem reads_pure (a : α) (i : ℕ) : ReadsOrStuck ParseRequest.taken (pure a : Parse α) i a i 0 :=
  (does_pure (fun _ ↦ True) a i).reads.orStuck

theorem reads_newAst {p : Unit → Parse β} (h : ReadsOrStuck ParseRequest.taken (p ()) i b j n) :
    ReadsOrStuck ParseRequest.taken (newAst >>= p) i b j (roundUp astSize + n) := by
  have hnew : Reads ParseRequest.taken newAst i () i (roundUp astSize) := ⟨rfl, Nat.add_zero _⟩
  exact hnew.orStuck.bind h

theorem reads_expect {what : ParseError} {p : Unit → Parse β} (ht : toks i = t)
    (h : ReadsOrStuck ParseRequest.taken (p ()) (i + 1) b j n) :
    ReadsOrStuck ParseRequest.taken (expect toks t what >>= p) i b j n :=
  have hexpect : Does (fun _ ↦ True) (expect toks t what) i () (i + 1) := expect_does trivial ht
  hexpect.readsOrStuck_bind h

theorem reads_accept {p : Bool → Parse β} (ht : toks i = t)
    (h : ReadsOrStuck ParseRequest.taken (p true) (i + 1) b j n) :
    ReadsOrStuck ParseRequest.taken (accept toks t >>= p) i b j n :=
  have haccept : Does (fun _ ↦ True) (accept toks t) i true (i + 1) := accept_does trivial ht
  haccept.readsOrStuck_bind h

theorem reads_accept_not {p : Bool → Parse β} (ht : toks i ≠ t)
    (h : ReadsOrStuck ParseRequest.taken (p false) i b j n) :
    ReadsOrStuck ParseRequest.taken (accept toks t >>= p) i b j n :=
  have haccept : Does (fun _ ↦ True) (accept toks t) i false i := accept_does_not trivial ht
  haccept.readsOrStuck_bind h

theorem leaf_reads (e : Expr) (i : ℕ) :
    ReadsOrStuck ParseRequest.taken (leaf e) i e (i + 1) (roundUp astSize) :=
  Reads.orStuck ⟨rfl, Nat.add_zero _⟩

end Primitives

variable {expr : Parse Expr}

theorem postfixLoop_reads (h : Stops 0 (toks i)) (e : Expr) :
    ReadsOrStuck ParseRequest.taken (postfixLoop toks expr fuel e) i e i 0 := by
  cases fuel with
  | zero => exact readsOrStuck_stuck e i i 0
  | succ fuel =>
    refine reads_cur ?_
    rw [if_neg h.call, if_neg]
    · exact reads_pure e i
    · rintro (hplus | hminus)
      · exact h.inc true hplus
      · exact h.inc false hminus

theorem binopLoop_reads {higher : Parse Expr} (h : Stops r (toks i)) (lhs : Expr) :
    ReadsOrStuck ParseRequest.taken (binopLoop toks higher (Operator.ofRank r) fuel lhs) i lhs i 0 := by
  cases fuel with
  | zero => exact readsOrStuck_stuck lhs i i 0
  | succ fuel =>
    refine reads_cur ?_
    have hnone := Operator.lookup_eq_none (k := r) fun op hop ↦ h.binary op (Nat.le_of_eq hop)
    rw [hnone]
    exact reads_pure lhs i

/-! ### What the parser makes of an expression -/

variable (toks) in
/-- The function for operators up to `r` parses `t`. -/
def Climbs (t : Term) (r : ℕ) : Prop :=
  ∀ f loops fuel i j, Spans toks i (t.print r) j → Stops r (toks j) →
    ReadsOrStuck ParseRequest.taken (climb toks (parseExpr toks f) loops fuel r) i t.tree j t.memory

variable (toks) in
/-- `parse_assign` parses `t`. -/
def Assigns (t : Term) : Prop :=
  ∀ f loops fuel i j, Spans toks i t.bare j → Stops 12 (toks j) →
    ReadsOrStuck ParseRequest.taken (parseAssign toks (parseExpr toks f) loops fuel) i t.tree j t.memory

variable (toks) in
/-- The function for operators of rank `r + 2` comes behind `t` to its loop, with the tree of `t`, and
goes on from there. -/
def Leads (t : Term) (r : ℕ) : Prop :=
  ∀ f loops fuel i m, Spans toks i (t.print (r + 2)) m → Stops (r + 1) (toks m) → ∀ e j n,
    (∀ loops', ReadsOrStuck ParseRequest.taken (binopLoop toks (climb toks (parseExpr toks f) loops
      fuel (r + 1)) (Operator.ofRank (r + 2)) loops' t.tree) m e j n) →
    ReadsOrStuck ParseRequest.taken (climb toks (parseExpr toks f) loops fuel (r + 2)) i e j
      (t.memory + n)

variable {t : Term}

theorem Assigns.parsed (h : Assigns toks t) (hspan : Spans toks i t.bare j) (hstop : Stops 12 (toks j)) :
    ReadsOrStuck ParseRequest.taken (parseExpr toks f) i t.tree j t.memory := by
  cases f with
  | zero => exact readsOrStuck_stuck t.tree i j _
  | succ f => exact h f _ _ i j hspan hstop

/-- An operand that is printed alike for the rank below leads to the loop. -/
theorem Climbs.leads (h : Climbs toks t (r + 1)) (hrank : t.rank ≠ r + 2) : Leads toks t r := by
  intro f loops fuel i m hspan hstop e j n hloop
  rw [Term.print_succ hrank] at hspan
  exact (h f loops fuel i m hspan hstop).bind (hloop loops)

theorem Leads.climbs (h : Leads toks t r) : Climbs toks t (r + 2) := by
  intro f loops fuel i j hspan hstop
  exact h f loops fuel i j hspan (hstop.mono (Nat.le_succ _)) t.tree j 0 fun loops' ↦
    binopLoop_reads hstop t.tree

end NoOsKernel.Noc
