import NoOsKernel.Noc.Grammar
import NoOsKernel.Noc.ParserInverse

/-!
# The parser accepts what the grammar derives

The converse of `nocParse_derives`. The induction is on the derivation, and carries for each phrase
what the functions of the parser make of it: for an expression of a level the function for its rank,
and the loop over the operators of that rank when it has come behind the expression. The parser takes
exactly the trees of the grammar (`nocParse_iff_program`), so the grammar is unambiguous.
-/

set_option autoImplicit false
set_option relaxedAutoImplicit false

namespace NoOsKernel.Noc

open Lib Scan

/-! ### Memory -/

mutual

/-- The bytes of the arena for an expression: a node each for the expression and the variable it
begins with, and the array of a call. -/
def Expr.memory : Expr → ℕ
  | .call _ args => 2 * roundUp astSize + (if args = [] then 0 else roundUp (8 * nocMaxArgs)) +
      argsMemory args
  | .un _ a => roundUp astSize + a.memory
  | .preinc _ _ => 2 * roundUp astSize
  | .postinc _ _ => 2 * roundUp astSize
  | .bin _ a b => roundUp astSize + a.memory + b.memory
  | .logic _ a b => roundUp astSize + a.memory + b.memory
  | .assign _ _ a => 2 * roundUp astSize + a.memory
  | _ => roundUp astSize

/-- The bytes for some expressions. -/
def argsMemory : List Expr → ℕ
  | [] => 0
  | a :: args => a.memory + argsMemory args

end

theorem Expr.memory_var (x : Name) : (Expr.var x).memory = roundUp astSize := Expr.memory.eq_def _

theorem Operator.memory_node (op : Operator) (a b : Expr) :
    (op.node a b).memory = roundUp astSize + a.memory + b.memory := by
  cases op <;> exact Expr.memory.eq_def _

/-- The bytes for an expression that may be left out. -/
def optMemory : Option Expr → ℕ
  | none => 0
  | some e => e.memory

/-- The bytes for the first clause of a `for`. -/
def ForInit.memory : ForInit → ℕ
  | .none => 0
  | .decl _ _ init => roundUp astSize + optMemory init
  | .expr e => e.memory

/-- The bytes for the node of a default value. -/
def defaultMemory : Option U64 → ℕ
  | none => 0
  | some _ => roundUp astSize

/-- The bytes for some parameters. -/
def paramNodes : List Param → ℕ
  | [] => 0
  | p :: ps => roundUp astSize + defaultMemory p.default + paramNodes ps

/-- The bytes for the parameters of a function with their array. -/
def paramsMemory (ps : List Param) : ℕ :=
  (if ps = [] then 0 else roundUp (8 * nocMaxArgs)) + paramNodes ps

/-- The bytes for the array of a block. -/
def blockArray (body : List Stmt) : ℕ :=
  match body with
  | [] => 0
  | _ :: _ => roundUp (8 * nocMaxNodes)

mutual

/-- The bytes for a statement. -/
def Stmt.memory : Stmt → ℕ
  | .expr e => roundUp astSize + e.memory
  | .decl _ _ init => roundUp astSize + optMemory init
  | .block body => roundUp astSize + (blockArray body + stmtsMemory body)
  | .ifThen c t => roundUp astSize + (c.memory + t.memory)
  | .ifElse c t e => roundUp astSize + (c.memory + (t.memory + e.memory))
  | .while c body => roundUp astSize + (c.memory + body.memory)
  | .for init c post body =>
    roundUp astSize + (init.memory + (optMemory c + (optMemory post + body.memory)))
  | .ret e => roundUp astSize + optMemory e
  | .func _ _ ps body =>
    roundUp astSize + (paramsMemory ps.val + (roundUp astSize + (blockArray body + stmtsMemory body)))

/-- The bytes for some statements. -/
def stmtsMemory : List Stmt → ℕ
  | [] => 0
  | s :: ss => s.memory + stmtsMemory ss

end

/-- The bytes for a line, with the array of its statements. -/
def programMemory (ss : List Stmt) : ℕ := roundUp (astSize * nocMaxNodes) + stmtsMemory ss

variable {toks : ℕ → Tok} {i j k m n r f fuel loops : ℕ} {e a b : Expr} {p : Phrase}

/-! ### How a phrase begins and ends -/

/-- The tokens an expression can begin with. -/
def startsExpr : Tok → Bool
  | .num _ => true
  | .str _ => true
  | .kwTrue => true
  | .kwFalse => true
  | .ident _ => true
  | .lp => true
  | t => isUnary t

theorem Derives.starts (h : Derives toks p i j) : startsExpr (toks i) = true := by
  induction h with
  | num h => rw [h]; rfl
  | str h => rw [h]; rfl
  | kwTrue h => rw [h]; rfl
  | kwFalse h => rw [h]; rfl
  | var h => rw [h]; rfl
  | paren hlp _ _ _ => rw [hlp]; rfl
  | primary _ ih => exact ih
  | callNone _ _ _ ih => exact ih
  | call _ _ _ _ _ ih _ => exact ih
  | postinc _ _ ih => exact ih
  | @un i j op a hop _ _ => rw [hop]; cases op <;> rfl
  | @preinc i j x plus hinc _ _ => rw [hinc]; cases plus <;> rfl
  | bin _ _ _ _ ih _ => exact ih
  | assign _ _ _ ih _ => exact ih
  | weaker _ _ ih => exact ih
  | arg _ ih => exact ih
  | moreArgs _ _ _ ih _ => exact ih

/-- A primary does not begin with a unary operator. -/
theorem Derives.primary_starts (h : Derives toks (.primary e) i j) : isUnary (toks i) = false := by
  cases h with
  | num h => rw [h]; rfl
  | str h => rw [h]; rfl
  | kwTrue h => rw [h]; rfl
  | kwFalse h => rw [h]; rfl
  | var h => rw [h]; rfl
  | paren hlp _ _ => rw [hlp]; rfl

theorem Derives.postfix_starts (h : Derives toks (.level 0 e) i j) : isUnary (toks i) = false := by
  cases h with
  | primary he => exact he.primary_starts
  | callNone hf _ _ => exact hf.primary_starts
  | call hf _ _ _ _ => exact hf.primary_starts
  | postinc hx _ => exact hx.primary_starts

theorem Derives.lt (h : Derives toks p i j) : i < j := by
  induction h with
  | num _ => exact Nat.lt_succ_self _
  | str _ => exact Nat.lt_succ_self _
  | kwTrue _ => exact Nat.lt_succ_self _
  | kwFalse _ => exact Nat.lt_succ_self _
  | var _ => exact Nat.lt_succ_self _
  | paren _ _ _ ih => omega
  | primary _ ih => exact ih
  | callNone _ _ _ ih => omega
  | call _ _ _ _ _ ih ih' => omega
  | postinc _ _ ih => omega
  | un _ _ ih => omega
  | preinc _ _ ih => omega
  | bin _ _ _ _ ih ih' => omega
  | assign _ _ _ ih ih' => omega
  | weaker _ _ ih => exact ih
  | arg _ ih => exact ih
  | moreArgs _ _ _ ih ih' => omega

/-- A semicolon ends every expression. -/
theorem stops_semi (r : ℕ) : Stops r .semi where
  call := nofun
  inc plus := by cases plus <;> nofun
  binary op _ := by
    have hall : ∀ op ∈ Operator.all, Tok.semi ≠ op.token := by decide
    exact hall op op.mem_all
  assign op _ := by cases op <;> nofun

/-! ### What the parser makes of a phrase -/

/-- What the parser makes of an expression of a level: the function for the operators up to that level,
the loop over the operators of the level behind the expression, and `parse_assign` on top. -/
structure LevelRead (toks : ℕ → Tok) (r : ℕ) (e : Expr) (i j : ℕ) : Prop where
  climbs : r ≤ 11 → ∀ f loops fuel, Stops r (toks j) → ReadsOrStuck ParseRequest.taken
    (climb toks (parseExpr toks f) loops fuel r) i e j e.memory
  leads : ∀ s, r = s + 2 → r ≤ 11 → ∀ f loops fuel, Stops (s + 1) (toks j) → ∀ e' k n,
    (∀ loops', ReadsOrStuck ParseRequest.taken (binopLoop toks (climb toks (parseExpr toks f) loops
      fuel (s + 1)) (Operator.ofRank (s + 2)) loops' e) j e' k n) →
    ReadsOrStuck ParseRequest.taken (climb toks (parseExpr toks f) loops fuel (s + 2)) i e' k
      (e.memory + n)
  assigns : r = 12 → ∀ f loops fuel, Stops 12 (toks j) → ReadsOrStuck ParseRequest.taken
    (parseAssign toks (parseExpr toks f) loops fuel) i e j e.memory

/-- What the parser makes of a phrase. -/
def PhraseRead (toks : ℕ → Tok) : Phrase → ℕ → ℕ → Prop
  | .primary e, i, j => ∀ f, ReadsOrStuck ParseRequest.taken (parsePrimary toks (parseExpr toks f)) i e j
      e.memory
  | .level r e, i, j => LevelRead toks r e i j
  | .args es, i, j => ∀ f fuel allocated done, done.length + es.length ≤ nocMaxArgs → toks j = .rp →
      ReadsOrStuck ParseRequest.taken (argLoop toks (parseExpr toks f) fuel allocated done) i
        (done ++ es) j ((if allocated then 0 else roundUp (8 * nocMaxArgs)) + argsMemory es)

theorem LevelRead.parsed (h : LevelRead toks 12 e i j) (hstop : Stops 12 (toks j)) :
    ReadsOrStuck ParseRequest.taken (parseExpr toks f) i e j e.memory := by
  cases f with
  | zero => exact readsOrStuck_stuck e i j _
  | succ f => exact h.assigns rfl f _ _ hstop

/-- An expression below the operators of two operands. -/
theorem LevelRead.of_low (hr : r < 2) (h : ∀ f loops fuel, Stops r (toks j) →
    ReadsOrStuck ParseRequest.taken (climb toks (parseExpr toks f) loops fuel r) i e j e.memory) :
    LevelRead toks r e i j where
  climbs _ := h
  leads s hs := absurd hs (by omega)
  assigns hs := absurd hs (by omega)

/-- An expression that leads to the loop of its level is read when the loop stops behind it. -/
theorem LevelRead.of_leads (hr : r + 2 ≤ 11) (h : ∀ f loops fuel, Stops (r + 1) (toks j) → ∀ e' k n,
    (∀ loops', ReadsOrStuck ParseRequest.taken (binopLoop toks (climb toks (parseExpr toks f) loops
      fuel (r + 1)) (Operator.ofRank (r + 2)) loops' e) j e' k n) →
    ReadsOrStuck ParseRequest.taken (climb toks (parseExpr toks f) loops fuel (r + 2)) i e' k
      (e.memory + n)) : LevelRead toks (r + 2) e i j where
  climbs _ f loops fuel hstop := h f loops fuel (hstop.mono (Nat.le_succ _)) e j 0 fun loops' ↦
    binopLoop_reads hstop e
  leads s hs _ := by
    obtain rfl : r = s := by omega
    exact h
  assigns hs := absurd hs (by omega)

/-! ### Primaries and postfix operators -/

theorem PhraseRead.paren (hlp : toks i = .lp) (he : LevelRead toks 12 e (i + 1) j)
    (hrp : toks j = .rp) : PhraseRead toks (.primary e) i (j + 1) := by
  intro f
  refine reads_cur ?_
  rw [hlp]
  refine reads_advance ?_
  have hinner := he.parsed (f := f) (stops_closing (by rw [hrp]; decide) 12)
  refine ReadsOrStuck.of_eq (hinner.attempt.bind (reads_expect hrp ?_)) (Nat.add_zero _)
  exact reads_pure e (j + 1)

theorem PhraseRead.level (h : PhraseRead toks (.primary e) i j) : LevelRead toks 0 e i j := by
  refine .of_low (by decide) fun f loops fuel hstop ↦ ?_
  have hloop : ReadsOrStuck ParseRequest.taken (postfixLoop toks (parseExpr toks f) loops e) j e j 0 :=
    postfixLoop_reads hstop e
  exact ReadsOrStuck.of_eq ((h f).bind hloop) (Nat.add_zero _)

/-- A call, when its arguments are read. -/
theorem PhraseRead.call {g : Name} {es : List Expr} (hg : PhraseRead toks (.primary (.var g)) i m)
    (hlp : toks m = .lp) (hrp : toks j = .rp)
    (hargs : ∀ f fuel, ReadsOrStuck ParseRequest.taken (parseArgs toks (parseExpr toks f) fuel) (m + 1)
      es j ((if es = [] then 0 else roundUp (8 * nocMaxArgs)) + argsMemory es)) :
    LevelRead toks 0 (.call g es) i (j + 1) := by
  refine .of_low (by decide) fun f loops fuel hstop ↦ ?_
  refine ReadsOrStuck.of_eq ((hg f).bind (n := roundUp astSize +
    ((if es = [] then 0 else roundUp (8 * nocMaxArgs)) + argsMemory es)) ?_) (by
      rw [Expr.memory, Expr.memory_var]
      omega)
  cases loops with
  | zero => exact readsOrStuck_stuck _ _ _ _
  | succ loops =>
    refine reads_cur ?_
    rw [hlp]
    refine reads_advance (reads_newAst ?_)
    refine ReadsOrStuck.of_eq ((hargs f loops).bind (reads_expect hrp ?_)) (Nat.add_zero _)
    exact postfixLoop_reads hstop _

theorem PhraseRead.parseArgs {es : List Expr} (h : PhraseRead toks (.args es) i j)
    (hne : toks i ≠ .rp) (hes : es ≠ []) (hroom : es.length ≤ nocMaxArgs) (hrp : toks j = .rp) :
    ReadsOrStuck ParseRequest.taken (parseArgs toks (parseExpr toks f) fuel) i es j
      ((if es = [] then 0 else roundUp (8 * nocMaxArgs)) + argsMemory es) := by
  refine reads_cur ?_
  rw [if_neg hne, if_neg hes]
  exact h f fuel false [] (by rwa [List.length_nil, Nat.zero_add]) hrp

theorem PhraseRead.postinc {x : Name} {plus : Bool} (hx : PhraseRead toks (.primary (.var x)) i m)
    (hinc : toks m = incToken plus) : LevelRead toks 0 (.postinc x plus) i (m + 1) := by
  refine .of_low (by decide) fun f loops fuel hstop ↦ ?_
  refine ReadsOrStuck.of_eq ((hx f).bind (n := roundUp astSize) ?_) (by
    rw [Expr.memory, Expr.memory_var]
    omega)
  cases loops with
  | zero => exact readsOrStuck_stuck _ _ _ _
  | succ loops =>
    have hnew : ReadsOrStuck ParseRequest.taken (do
        newAst
        postfixLoop toks (parseExpr toks f) loops (.postinc x plus)) (m + 1) (.postinc x plus)
        (m + 1) (roundUp astSize) :=
      ReadsOrStuck.of_eq (reads_newAst (postfixLoop_reads hstop _)) (Nat.add_zero _)
    refine reads_cur ?_
    rw [hinc]
    cases plus with
    | true => exact reads_advance hnew
    | false => exact reads_advance hnew

/-! ### Operators -/

/-- A unary operator in front of what `parse_unary` reads. -/
theorem LevelRead.unary {t : Tok} {e' : Expr} (ha : LevelRead toks 1 a (i + 1) j) (ht : toks i = t)
    (hunary : isUnary t = true) (hnode : unaryNode t a = pure e')
    (hmem : e'.memory = roundUp astSize + a.memory) : LevelRead toks 1 e' i j := by
  refine .of_low (by decide) fun f loops fuel hstop ↦ ?_
  rw [hmem]
  exact parseUnary_reads ht hunary (fun fuel ↦ ha.climbs (by decide) f loops fuel hstop) hnode

theorem LevelRead.bin {op : Operator} (hrank : op.rank = r + 1) (ha : LevelRead toks (r + 1) a i m)
    (hop : toks m = op.token) (hb : LevelRead toks r b (m + 1) j) :
    LevelRead toks (r + 1) (op.node a b) i j := by
  have htwo := op.two_le_rank
  have hle := op.rank_le
  obtain ⟨s, rfl⟩ : ∃ s, r = s + 1 := ⟨r - 1, by omega⟩
  have hstops := stops_operator op
  rw [hrank, ← hop] at hstops
  refine .of_leads (by omega) fun f loops fuel hstop e' k n hloop ↦ ?_
  refine ReadsOrStuck.of_eq (ha.leads s rfl (by omega) f loops fuel hstops e' k
    (b.memory + (roundUp astSize + n)) fun loops' ↦ ?_) (by rw [op.memory_node]; omega)
  cases loops' with
  | zero => exact readsOrStuck_stuck _ _ _ _
  | succ loops' =>
    refine reads_cur ?_
    rw [hop, ← hrank, op.lookup_token]
    refine reads_advance ?_
    rw [hrank]
    refine (hb.climbs (by omega) f loops fuel hstop).bind ?_
    exact reads_newAst (hloop loops')

theorem AssignOp.stops (op : AssignOp) : Stops 11 op.token where
  call := by cases op <;> nofun
  inc plus := by cases op <;> cases plus <;> nofun
  binary op' _ := by
    have hall : ∀ op' ∈ Operator.all, ∀ op : AssignOp, op.token ≠ op'.token := by
      intro op' hop' op
      cases op <;> revert op' <;> decide
    exact hall op' op'.mem_all op
  assign _ hle := absurd hle (by decide)

theorem LevelRead.assign {op : AssignOp} {x : Name} (hx : LevelRead toks 11 (.var x) i m)
    (hop : toks m = op.token) (ha : LevelRead toks 12 a (m + 1) j) :
    LevelRead toks 12 (.assign op x a) i j where
  climbs hle := absurd hle (by decide)
  leads s hs hle := absurd hle (by decide)
  assigns _ f loops fuel hstop := by
    cases fuel with
    | zero => exact readsOrStuck_stuck _ _ _ _
    | succ fuel =>
      have hlookup : assignOps.lookup op.token = some op := by cases op <;> rfl
      have hlhs := hx.climbs le_rfl f loops loops (by rw [hop]; exact op.stops)
      refine ReadsOrStuck.of_eq (hlhs.bind (reads_cur (n := a.memory + roundUp astSize) ?_)) (by
        rw [Expr.memory, Expr.memory_var]
        omega)
      rw [hop, hlookup]
      refine reads_advance ((ha.assigns rfl f loops fuel hstop).bind ?_)
      exact ReadsOrStuck.of_eq (reads_newAst (reads_pure _ j)) (Nat.add_zero _)

/-- `parse_unary` passes on what does not begin with an operator. -/
theorem LevelRead.passUnary (h : LevelRead toks 0 e i j) (hstart : isUnary (toks i) = false) :
    LevelRead toks 1 e i j := by
  refine .of_low (by decide) fun f loops fuel hstop ↦ ?_
  cases fuel with
  | zero => exact readsOrStuck_stuck _ _ _ _
  | succ fuel =>
    refine reads_cur ?_
    rw [hstart, if_neg Bool.false_ne_true]
    exact h.climbs (by decide) f loops fuel (hstop.mono (Nat.zero_le 1))

/-- `parse_assign` passes on what is no assignment. -/
theorem LevelRead.passAssign (h : LevelRead toks 11 e i j) : LevelRead toks 12 e i j where
  climbs hle := absurd hle (by decide)
  leads s hs hle := absurd hle (by decide)
  assigns _ f loops fuel hstop := by
    cases fuel with
    | zero => exact readsOrStuck_stuck _ _ _ _
    | succ fuel =>
      have hlhs := h.climbs le_rfl f loops loops (hstop.mono (by decide))
      refine ReadsOrStuck.of_eq (hlhs.bind (reads_cur ?_)) (Nat.add_zero _)
      have hnone : assignOps.lookup (toks j) = none := by
        cases hop : assignOps.lookup (toks j) with
        | none => rfl
        | some op => exact absurd (assignOp_of_lookup hop) (hstop.assign op (by decide))
      rw [hnone]
      exact reads_pure e j

theorem LevelRead.weaker (hr : r < 12) (h : LevelRead toks r e i j)
    (hstart : r = 0 → isUnary (toks i) = false) : LevelRead toks (r + 1) e i j := by
  rcases Nat.lt_or_ge r 11 with hlt | hge
  · cases r with
    | zero => exact h.passUnary (hstart rfl)
    | succ r =>
      refine .of_leads (by omega) fun f loops fuel hstop e' k n hloop ↦ ?_
      exact (h.climbs (by omega) f loops fuel hstop).bind (hloop loops)
  · obtain rfl : r = 11 := by omega
    exact h.passAssign

/-! ### Arguments -/

/-- A round of the loop over the arguments, with what follows the comma. -/
theorem argLoop_round {allocated : Bool} {done es : List Expr} (he : LevelRead toks 12 e i m)
    (hstop : Stops 12 (toks m)) (hroom : done.length < nocMaxArgs)
    (hrest : ReadsOrStuck ParseRequest.taken (do
        let more ← accept toks .comma
        if more then argLoop toks (parseExpr toks f) fuel true (done ++ [e])
        else pure (done ++ [e])) m (done ++ e :: es) j (argsMemory es)) :
    ReadsOrStuck ParseRequest.taken (argLoop toks (parseExpr toks f) (fuel + 1) allocated done) i
      (done ++ e :: es) j ((if allocated then 0 else roundUp (8 * nocMaxArgs)) +
        argsMemory (e :: es)) := by
  have hput : Does (fun _ ↦ True) (report (.put .callArgs (!true) done.length) : Parse Unit)
      m () m := does_report trivial m
  rw [argLoop, argsMemory]
  refine ReadsOrStuck.of_eq ((he.parsed hstop).bind (n := (if allocated then 0 else
    roundUp (8 * nocMaxArgs)) + argsMemory es) ?_) (by omega)
  rw [if_neg (by omega)]
  cases allocated with
  | true => exact ReadsOrStuck.of_eq ((reads_pure true m).bind (hput.readsOrStuck_bind hrest)) rfl
  | false => exact (reads_request _ m).orStuck.bind (hput.readsOrStuck_bind hrest)

theorem PhraseRead.arg (he : LevelRead toks 12 e i j) : PhraseRead toks (.args [e]) i j := by
  intro f fuel allocated done hroom hrp
  rw [List.length_singleton] at hroom
  cases fuel with
  | zero => exact readsOrStuck_stuck _ _ _ _
  | succ fuel =>
    refine argLoop_round he (stops_closing (by rw [hrp]; decide) 12) (by omega) ?_
    exact reads_accept_not (by rw [hrp]; decide) (reads_pure _ j)

theorem PhraseRead.moreArgs {es : List Expr} (he : LevelRead toks 12 e i m) (hcomma : toks m = .comma)
    (hes : PhraseRead toks (.args es) (m + 1) j) : PhraseRead toks (.args (e :: es)) i j := by
  intro f fuel allocated done hroom hrp
  rw [List.length_cons] at hroom
  cases fuel with
  | zero => exact readsOrStuck_stuck _ _ _ _
  | succ fuel =>
    refine argLoop_round he (stops_closing (by rw [hcomma]; decide) 12) (by omega) ?_
    refine reads_accept hcomma ?_
    have hnext := hes f fuel true (done ++ [e]) (by
      rw [List.length_append, List.length_singleton]
      omega) hrp
    rw [if_pos rfl, Nat.zero_add, List.append_assoc] at hnext
    exact hnext

/-! ### All expressions -/

theorem Derives.args_ne_nil {es : List Expr} (h : Derives toks (.args es) i j) : es ≠ [] := by
  cases h with
  | arg _ => exact List.cons_ne_nil _ _
  | moreArgs _ _ _ => exact List.cons_ne_nil _ _

theorem Derives.read (h : Derives toks p i j) : PhraseRead toks p i j := by
  induction h with
  | num h => exact fun f ↦ reads_cur (by rw [h]; exact leaf_reads _ _)
  | str h => exact fun f ↦ reads_cur (by rw [h]; exact leaf_reads _ _)
  | kwTrue h => exact fun f ↦ reads_cur (by rw [h]; exact leaf_reads _ _)
  | kwFalse h => exact fun f ↦ reads_cur (by rw [h]; exact leaf_reads _ _)
  | var h => exact fun f ↦ reads_cur (by rw [h]; exact leaf_reads _ _)
  | paren hlp _ hrp ih => exact .paren hlp ih hrp
  | primary _ ih => exact ih.level
  | callNone _ hlp hrp ih =>
    refine ih.call hlp hrp fun f fuel ↦ reads_cur ?_
    rw [if_pos hrp]
    exact reads_pure [] _
  | call _ hlp hargs hroom hrp ih ihargs =>
    have hstart := hargs.starts
    refine ih.call hlp hrp fun f fuel ↦ ihargs.parseArgs ?_ hargs.args_ne_nil hroom hrp
    intro hclosed
    rw [hclosed] at hstart
    exact absurd hstart (by decide)
  | postinc _ hinc ih => exact ih.postinc hinc
  | @un i j op a hop _ ih => cases op <;> exact ih.unary hop rfl rfl (Expr.memory.eq_def _)
  | @preinc i j x plus hinc _ ih =>
    cases plus <;> exact ih.unary hinc rfl rfl (by rw [Expr.memory, Expr.memory_var]; omega)
  | bin hrank _ hop _ ih ih' => exact ih.bin hrank hop ih'
  | assign _ hop _ ih ih' => exact ih.assign hop ih'
  | weaker hr he ih =>
    refine ih.weaker hr ?_
    rintro rfl
    exact he.postfix_starts
  | arg _ ih => exact .arg ih
  | moreArgs _ hcomma _ ih ih' => exact .moreArgs ih hcomma ih'

/-- An expression of the grammar, with a token behind it that is no part of it. -/
theorem Derives.parsed (h : Derives toks (.level 12 e) i j) (hstop : Stops 12 (toks j)) :
    ReadsOrStuck ParseRequest.taken (parseExpr toks f) i e j e.memory :=
  LevelRead.parsed h.read hstop

/-! ### The parts of a statement -/

section Parts

theorem stops_end {t : Tok} (h : t = .semi ∨ t = .eof ∨ t = .rp) : Stops 12 t := by
  rcases h with rfl | rfl | rfl
  · exact stops_semi 12
  · exact stops_closing (by decide) 12
  · exact stops_closing (by decide) 12

theorem Ends.token (h : Ends toks i j) : toks i = .semi ∨ toks i = .eof ∨ toks i = .rp := by
  rcases h with ⟨hsemi, -⟩ | ⟨heof, -⟩
  · exact Or.inl hsemi
  · exact Or.inr (Or.inl heof)

theorem Ends.reads (h : Ends toks i j) :
    ReadsOrStuck ParseRequest.taken (semiOk toks) i () j 0 := by
  rcases h with ⟨hsemi, rfl⟩ | ⟨heof, rfl⟩
  · exact reads_accept hsemi (reads_pure () (i + 1))
  · refine reads_accept_not (by rw [heof]; decide) (reads_cur ?_)
    rw [if_pos heof]
    exact reads_pure () j

theorem InitFrom.reads {init : Option Expr} (h : InitFrom toks init i j)
    (hend : toks j = .semi ∨ toks j = .eof ∨ toks j = .rp) :
    ReadsOrStuck ParseRequest.taken (optionalInit toks (parseExpr toks f)) i init j
      (optMemory init) := by
  cases init with
  | none =>
    obtain rfl : j = i := h
    refine reads_accept_not ?_ (reads_pure none j)
    rintro heq
    rw [heq] at hend
    exact absurd hend (by decide)
  | some e =>
    obtain ⟨heq, he⟩ := h
    refine reads_accept heq ?_
    exact ReadsOrStuck.of_eq ((he.parsed (stops_end hend)).bind (reads_pure _ j)) (Nat.add_zero _)

theorem OptFrom.reads {c : Option Expr} {stop : Tok} (h : OptFrom toks c i j)
    (hstop : stop = .semi ∨ stop = .rp) (hnone : c = none → toks j = stop)
    (hend : toks j = .semi ∨ toks j = .eof ∨ toks j = .rp) :
    ReadsOrStuck ParseRequest.taken (optionalExpr toks (parseExpr toks f) stop) i c j
      (optMemory c) := by
  refine reads_cur ?_
  cases c with
  | none =>
    obtain rfl : j = i := h
    rw [if_pos (hnone rfl)]
    exact reads_pure none j
  | some e =>
    have hstart := Derives.starts h
    rw [if_neg]
    · exact ReadsOrStuck.of_eq ((Derives.parsed h (stops_end hend)).bind (reads_pure _ j))
        (Nat.add_zero _)
    · rintro heq
      rw [heq] at hstart
      rcases hstop with rfl | rfl <;> exact absurd hstart (by decide)

theorem defaultLeaf_reads (v : U64) (i : ℕ) :
    ReadsOrStuck ParseRequest.taken (defaultLeaf v) i (some v) (i + 1) (roundUp astSize) :=
  Reads.orStuck ⟨rfl, Nat.add_zero _⟩

/-- Behind a parameter comes a comma or the end of the list. -/
theorem DefaultFrom.reads {d : Option U64} (h : DefaultFrom toks d i j)
    (hend : toks j = .comma ∨ toks j = .rp) :
    ReadsOrStuck ParseRequest.taken (optionalDefault toks) i d j (defaultMemory d) := by
  cases d with
  | none =>
    obtain rfl : j = i := h
    refine reads_accept_not ?_ (reads_pure none j)
    rintro heq
    rw [heq] at hend
    exact absurd hend (by decide)
  | some v =>
    obtain ⟨heq, hv, rfl⟩ := h
    refine reads_accept heq (reads_cur ?_)
    rcases hv with hv | ⟨hv, rfl⟩ | ⟨hv, rfl⟩ <;> rw [hv] <;> exact defaultLeaf_reads _ _

theorem checkedArray_reads {β : Type} {c : β} {arr : NodeArray} {memory : ParseError} {allocated : Bool}
    {q : Unit → Parse β} (h : ReadsOrStuck ParseRequest.taken (q ()) i c j n) :
    ReadsOrStuck ParseRequest.taken (checkedArray arr memory allocated >>= q) i c j
      ((if allocated then 0 else ParseRequest.taken (.array arr)) + n) := by
  cases allocated with
  | true => exact (reads_pure () i).bind h
  | false =>
    have harray : Reads ParseRequest.taken (checkedArray arr memory false) i () i
        (ParseRequest.taken (.array arr)) := ⟨rfl, Nat.add_zero _⟩
    exact harray.orStuck.bind h

theorem reads_put {β : Type} {c : β} {arr : NodeArray} {q : Unit → Parse β}
    (h : ReadsOrStuck ParseRequest.taken (q ()) i c j n) :
    ReadsOrStuck ParseRequest.taken (report (.put arr false k) >>= q) i c j n := by
  have hput : Does (fun _ ↦ True) (report (.put arr false k) : Parse Unit) i () i := does_report trivial i
  exact hput.readsOrStuck_bind h

theorem ParamsFrom.starts {ps : List Param} (h : ParamsFrom toks ps i j) :
    ∃ type, toks i = .type type := by
  match ps, h with
  | [p], h => exact ⟨p.type, h.1⟩
  | p :: _ :: _, ⟨_, hp, _⟩ => exact ⟨p.type, hp.1⟩

/-- The parameters behind those that are there. -/
theorem ParamsFrom.reads {ps : List Param} (h : ParamsFrom toks ps i j) (hrp : toks j = .rp)
    (fuel : ℕ) (done : List Param) (hroom : done.length + ps.length < nocMaxArgs) :
    ReadsOrStuck ParseRequest.taken (paramLoop toks fuel done) i
      ⟨done ++ ps, by rw [List.length_append]; exact hroom.le⟩ j
      ((if done = [] then roundUp (8 * nocMaxArgs) else 0) + paramNodes ps) := by
  induction fuel generalizing i ps done with
  | zero => exact readsOrStuck_stuck _ _ _ _
  | succ fuel ih =>
    obtain ⟨p, rest, rfl⟩ : ∃ p rest, ps = p :: rest := by
      cases ps with
      | nil => exact h.elim
      | cons p rest => exact ⟨p, rest, rfl⟩
    rw [List.length_cons] at hroom
    obtain ⟨m, ⟨htype, hx, hd⟩, hrest⟩ : ∃ m, ParamFrom toks p i m ∧
        (rest = [] ∧ m = j ∨ toks m = .comma ∧ ParamsFrom toks rest (m + 1) j) := by
      cases rest with
      | nil => exact ⟨j, h, Or.inl ⟨rfl, rfl⟩⟩
      | cons p' rest =>
        obtain ⟨m, hp, hcomma, hrest⟩ := h
        exact ⟨m, hp, Or.inr ⟨hcomma, hrest⟩⟩
    have hend : toks m = .comma ∨ toks m = .rp := by
      rcases hrest with ⟨-, rfl⟩ | ⟨hcomma, -⟩
      · exact Or.inr hrp
      · exact Or.inl hcomma
    refine ReadsOrStuck.of_eq (reads_cur (n := roundUp astSize + (defaultMemory p.default +
      ((if (!done.isEmpty) = true then 0 else ParseRequest.taken (.array .params)) +
        paramNodes rest))) ?_) ?_
    · rw [htype]
      refine reads_advance (reads_cur ?_)
      rw [hx]
      refine reads_newAst (reads_advance ((hd.reads hend).bind ?_))
      refine checkedArray_reads (reads_put ?_)
      rw [dif_pos (by omega)]
      rcases hrest with ⟨rfl, rfl⟩ | ⟨hcomma, hrest⟩
      · exact reads_accept_not (by rw [hrp]; decide) (reads_pure _ m)
      · refine reads_accept hcomma ?_
        have hnext := ih hrest (done ++ [p]) (by
          rw [List.length_append, List.length_singleton]
          omega)
        rw [if_neg (by simp), Nat.zero_add] at hnext
        have hlist : done ++ p :: rest = done ++ [p] ++ rest := by
          rw [List.append_assoc, List.singleton_append]
        simp only [hlist]
        exact hnext
    · have harray : ParseRequest.taken (.array .params) = roundUp (8 * nocMaxArgs) := rfl
      rw [paramNodes, harray]
      cases done with
      | nil => simp only [List.isEmpty_nil, Bool.not_true, Bool.false_eq_true, if_false, if_true]; omega
      | cons d done =>
        simp only [List.isEmpty_cons, Bool.not_false, if_true, reduceCtorEq, if_false]
        omega

theorem SignatureFrom.reads {ps : Params} (h : SignatureFrom toks ps i j) :
    ReadsOrStuck ParseRequest.taken (parseParams toks fuel) i ps j (paramsMemory ps.val) := by
  obtain ⟨ps, hps⟩ := ps
  obtain ⟨hlp, ⟨hnil, hrp, rfl⟩ | ⟨m, hparams, hroom, hrp, rfl⟩⟩ := h
  · obtain rfl : ps = [] := hnil
    exact reads_expect hlp (reads_accept hrp (reads_pure _ _))
  · have hne : ps ≠ [] := by
      rintro rfl
      exact hparams
    have hopen : toks (i + 1) ≠ .rp := by
      obtain ⟨type, htype⟩ := hparams.starts
      rw [htype]
      nofun
    rw [paramsMemory, if_neg hne]
    have hread := hparams.reads hrp fuel [] (by
      rwa [List.length_nil, Nat.zero_add])
    rw [if_pos rfl] at hread
    refine reads_expect hlp (reads_accept_not hopen ?_)
    exact ReadsOrStuck.of_eq (hread.bind (reads_expect hrp (reads_pure _ _))) (Nat.add_zero _)

theorem ForInitFrom.reads {init : ForInit} (h : ForInitFrom toks init i j) :
    ReadsOrStuck ParseRequest.taken (parseForInit toks (parseExpr toks f)) i init j init.memory := by
  cases init with
  | none =>
    obtain ⟨hsemi, rfl⟩ := h
    refine reads_cur ?_
    rw [hsemi]
    exact reads_advance (reads_pure _ _)
  | decl x type init =>
    obtain ⟨htype, hx, m, hinit, hsemi, rfl⟩ := h
    refine reads_cur ?_
    rw [htype]
    refine reads_advance (reads_cur ?_)
    rw [hx]
    refine reads_newAst (reads_advance ?_)
    exact ReadsOrStuck.of_eq ((hinit.reads (Or.inl hsemi)).bind
      (reads_expect hsemi (reads_pure _ _))) (Nat.add_zero _)
  | expr e =>
    obtain ⟨m, he, hsemi, rfl⟩ := h
    have hread : ReadsOrStuck ParseRequest.taken (do
        let e ← parseExpr toks f
        expect toks .semi .expectedSemi
        pure (.expr e)) i (ForInit.expr e) (m + 1) e.memory :=
      ReadsOrStuck.of_eq ((he.parsed (stops_end (Or.inl hsemi))).bind
        (reads_expect hsemi (reads_pure _ _))) (Nat.add_zero _)
    have hstart := he.starts
    refine reads_cur ?_
    generalize toks i = t at hstart
    cases t
    case semi => exact absurd hstart (by decide)
    case type type => exact absurd hstart nofun
    all_goals exact hread

end Parts

/-! ### Statements -/

/-- What the parser makes of a clause: of a statement, and of some statements in a block and on top. -/
def ClauseRead (toks : ℕ → Tok) : Clause → ℕ → ℕ → Prop
  | .stmt s, i, j => ∀ f, ReadsOrStuck ParseRequest.taken (parseStmt toks f) i s j s.memory
  | .stmts ss, i, j =>
    (∀ f fuel body, toks j = .rb → ReadsOrStuck ParseRequest.taken
      (blockLoop toks (parseStmt toks f) fuel body) i (body ++ ss) (j + 1)
      ((if body = [] then blockArray ss else 0) + stmtsMemory ss)) ∧
    ∀ f fuel stmts, toks j = .eof → stmts.length + ss.length < nocMaxNodes →
      ReadsOrStuck ParseRequest.taken (stmtLoop toks (parseStmt toks f) fuel stmts) i (stmts ++ ss) j
        (stmtsMemory ss)

/-- The tokens a statement does not begin with. -/
theorem Forms.starts {s : Stmt} (h : Forms toks (.stmt s) i j) : toks i ≠ .rb ∧ toks i ≠ .eof := by
  have hother : ∀ {t}, toks i = t → t ≠ .rb → t ≠ .eof → toks i ≠ .rb ∧ toks i ≠ .eof := by
    rintro t rfl hrb heof
    exact ⟨hrb, heof⟩
  cases h with
  | expr he _ =>
    have hstart := he.starts
    constructor <;> intro ht <;> rw [ht] at hstart <;> exact absurd hstart (by decide)
  | decl htype _ _ _ => exact hother htype nofun nofun
  | func htype _ _ _ _ _ => exact hother htype nofun nofun
  | block hlb _ _ => exact hother hlb nofun nofun
  | ifThen hif _ _ _ _ _ => exact hother hif nofun nofun
  | ifElse hif _ _ _ _ _ _ => exact hother hif nofun nofun
  | «while» hwhile _ _ _ _ => exact hother hwhile nofun nofun
  | «for» hfor _ _ _ _ _ _ _ => exact hother hfor nofun nofun
  | ret hreturn _ => exact hother hreturn nofun nofun

/-- `parse_stmt` on a token that begins an expression. -/
theorem parseStmt_expr (hstart : startsExpr (toks i) = true)
    (h : ReadsOrStuck ParseRequest.taken (parseStmtExpr toks (parseExpr toks (f + 1))) i
      (.expr e) j n) : ReadsOrStuck ParseRequest.taken (parseStmt toks (f + 1)) i (.expr e) j n := by
  rw [parseStmt]
  refine reads_cur ?_
  generalize toks i = t at hstart
  cases t
  case eof => exact absurd hstart (by decide)
  case lb => exact absurd hstart (by decide)
  case kwIf => exact absurd hstart (by decide)
  case kwWhile => exact absurd hstart (by decide)
  case kwFor => exact absurd hstart (by decide)
  case kwReturn => exact absurd hstart (by decide)
  case type type => exact absurd hstart Bool.false_ne_true
  all_goals exact h

/-- The statements of a block with their braces. -/
theorem parseBlock_reads {body : List Stmt} (hlb : toks i = .lb) (hrb : toks j = .rb)
    (h : ClauseRead toks (.stmts body) (i + 1) j) :
    ReadsOrStuck ParseRequest.taken (parseBlock toks (parseStmt toks f) fuel) i body (j + 1)
      (roundUp astSize + (blockArray body + stmtsMemory body)) := by
  refine reads_newAst (reads_expect hlb ?_)
  have hloop := h.1 f fuel [] hrb
  rw [if_pos rfl] at hloop
  exact hloop

/-- No statements. -/
theorem ClauseRead.nil (i : ℕ) : ClauseRead toks (.stmts []) i i := by
  constructor
  · intro f fuel body hrb
    cases fuel with
    | zero => exact readsOrStuck_stuck _ _ _ _
    | succ fuel =>
      refine ReadsOrStuck.of_eq (reads_cur (n := 0) ?_) (by
        rw [blockArray, stmtsMemory]
        split <;> rfl)
      rw [if_pos hrb, List.append_nil]
      exact reads_advance (reads_pure body _)
  · intro f fuel stmts heof _
    cases fuel with
    | zero => exact readsOrStuck_stuck _ _ _ _
    | succ fuel =>
      refine reads_cur ?_
      rw [if_pos heof, List.append_nil]
      exact reads_pure stmts i

/-- A statement in front of some statements. -/
theorem ClauseRead.cons {s : Stmt} {ss : List Stmt} (hstart : toks i ≠ .rb ∧ toks i ≠ .eof)
    (hs : ClauseRead toks (.stmt s) i m) (hss : ClauseRead toks (.stmts ss) m j) :
    ClauseRead toks (.stmts (s :: ss)) i j := by
  have hlist (l : List Stmt) : l ++ s :: ss = l ++ [s] ++ ss := by
    rw [List.append_assoc, List.singleton_append]
  constructor
  · intro f fuel body hrb
    cases fuel with
    | zero => exact readsOrStuck_stuck _ _ _ _
    | succ fuel =>
      have hrest := hss.1 f fuel (body ++ [s]) hrb
      rw [if_neg (by simp), Nat.zero_add, ← hlist] at hrest
      refine ReadsOrStuck.of_eq (reads_cur (n := s.memory +
        ((if (!body.isEmpty) = true then 0 else ParseRequest.taken (.array .block)) +
          stmtsMemory ss)) ?_) ?_
      · rw [if_neg hstart.1, if_neg hstart.2]
        exact (hs f).bind (checkedArray_reads (reads_put hrest))
      · have harray : ParseRequest.taken (.array .block) = roundUp (8 * nocMaxNodes) := rfl
        rw [blockArray, stmtsMemory, harray]
        cases body with
        | nil =>
          simp only [List.isEmpty_nil, Bool.not_true, Bool.false_eq_true, if_false, if_true]
          omega
        | cons d body =>
          simp only [List.isEmpty_cons, Bool.not_false, if_true, reduceCtorEq, if_false]
          omega
  · intro f fuel stmts heof hroom
    rw [List.length_cons] at hroom
    cases fuel with
    | zero => exact readsOrStuck_stuck _ _ _ _
    | succ fuel =>
      have hrest := hss.2 f fuel (stmts ++ [s]) heof (by
        rw [List.length_append, List.length_singleton]
        omega)
      rw [← hlist] at hrest
      refine reads_cur ?_
      rw [if_neg hstart.2, stmtsMemory]
      refine (hs f).bind (reads_put ?_)
      rw [if_neg (by omega)]
      exact hrest

/-- An expression in parentheses behind a keyword. -/
theorem reads_condition {β : Type} {d : β} {q : Expr → Parse β} (hlp : toks (i + 1) = .lp)
    (hc : Derives toks (.level 12 e) (i + 1 + 1) m) (hrp : toks m = .rp)
    (h : ReadsOrStuck ParseRequest.taken (q e) (m + 1) d j n) :
    ReadsOrStuck ParseRequest.taken (do
      expect toks .lp .expectedLp
      let c ← parseExpr toks f
      expect toks .rp .expectedRp
      q c) (i + 1) d j (e.memory + n) :=
  reads_expect hlp ((hc.parsed (stops_end (Or.inr (Or.inr hrp)))).bind (reads_expect hrp h))

theorem Forms.read {c : Clause} (h : Forms toks c i j) : ClauseRead toks c i j := by
  induction h with
  | expr he hend =>
    rintro (_ | f)
    · exact readsOrStuck_stuck _ _ _ _
    · rw [Stmt.memory]
      refine parseStmt_expr he.starts (reads_newAst ?_)
      refine ReadsOrStuck.of_eq ((he.parsed (stops_end hend.token)).bind ?_) (Nat.add_zero _)
      exact ReadsOrStuck.of_eq (hend.reads.bind (reads_pure _ _)) rfl
  | @decl i m j x type init htype hx hinit hend =>
    rintro (_ | f)
    · exact readsOrStuck_stuck _ _ _ _
    · rw [Stmt.memory, parseStmt]
      refine reads_cur ?_
      rw [htype]
      refine reads_advance (reads_cur ?_)
      rw [hx]
      refine reads_advance (reads_cur ?_)
      rw [if_neg]
      · refine reads_newAst (ReadsOrStuck.of_eq ((hinit.reads hend.token).bind ?_) (Nat.add_zero _))
        exact ReadsOrStuck.of_eq (hend.reads.bind (reads_pure _ _)) rfl
      · intro hlp
        cases init with
        | none =>
          obtain rfl : m = i + 1 + 1 := hinit
          have htoken := hend.token
          rw [hlp] at htoken
          exact absurd htoken (by decide)
        | some e => exact absurd (hlp.symm.trans hinit.1) (by decide)
  | func htype hf hps hlb _ hrb ih =>
    rintro (_ | f)
    · exact readsOrStuck_stuck _ _ _ _
    · rw [Stmt.memory, parseStmt]
      refine reads_cur ?_
      rw [htype]
      refine reads_advance (reads_cur ?_)
      rw [hf]
      refine reads_advance (reads_cur ?_)
      rw [if_pos hps.1]
      refine reads_newAst (hps.reads.bind ?_)
      exact ReadsOrStuck.of_eq ((parseBlock_reads hlb hrb ih).bind (reads_pure _ _)) rfl
  | block hlb _ hrb ih =>
    rintro (_ | f)
    · exact readsOrStuck_stuck _ _ _ _
    · rw [Stmt.memory, parseStmt]
      refine reads_cur ?_
      rw [hlb]
      exact ReadsOrStuck.of_eq ((parseBlock_reads hlb hrb ih).bind (reads_pure _ _)) rfl
  | ifThen hif hlp hc hrp _ helse ih =>
    rintro (_ | f)
    · exact readsOrStuck_stuck _ _ _ _
    · rw [Stmt.memory, parseStmt]
      refine reads_cur ?_
      rw [hif]
      refine reads_advance (reads_newAst (reads_condition hlp hc hrp ?_))
      exact ReadsOrStuck.of_eq ((ih f).bind (reads_accept_not helse (reads_pure _ _))) rfl
  | ifElse hif hlp hc hrp _ helse _ ih ih' =>
    rintro (_ | f)
    · exact readsOrStuck_stuck _ _ _ _
    · rw [Stmt.memory, parseStmt]
      refine reads_cur ?_
      rw [hif]
      refine reads_advance (reads_newAst (reads_condition hlp hc hrp ?_))
      refine (ih f).bind (reads_accept helse ?_)
      exact ReadsOrStuck.of_eq ((ih' f).bind (reads_pure _ _)) rfl
  | «while» hwhile hlp hc hrp _ ih =>
    rintro (_ | f)
    · exact readsOrStuck_stuck _ _ _ _
    · rw [Stmt.memory, parseStmt]
      refine reads_cur ?_
      rw [hwhile]
      refine reads_advance (reads_newAst (reads_condition hlp hc hrp ?_))
      exact ReadsOrStuck.of_eq ((ih f).bind (reads_pure _ _)) rfl
  | «for» hfor hlp hinit hc hsemi hpost hrp _ ih =>
    rintro (_ | f)
    · exact readsOrStuck_stuck _ _ _ _
    · rw [Stmt.memory, parseStmt]
      refine reads_cur ?_
      rw [hfor]
      refine reads_advance (reads_newAst (reads_expect hlp (hinit.reads.bind ?_)))
      refine (hc.reads (Or.inl rfl) (fun _ ↦ hsemi) (Or.inl hsemi)).bind (reads_expect hsemi ?_)
      refine (hpost.reads (Or.inr rfl) (fun _ ↦ hrp) (Or.inr (Or.inr hrp))).bind
        (reads_expect hrp ?_)
      exact ReadsOrStuck.of_eq ((ih f).bind (reads_pure _ _)) rfl
  | @ret i j e hreturn he =>
    rintro (_ | f)
    · exact readsOrStuck_stuck _ _ _ _
    · rw [Stmt.memory, parseStmt]
      refine reads_cur ?_
      rw [hreturn]
      obtain ⟨m, hopt, hnone, hend⟩ : ∃ m, OptFrom toks e (i + 1) m ∧ (e = none → toks m = .semi) ∧
          Ends toks m j := by
        cases e with
        | none => exact ⟨i + 1, rfl, fun _ ↦ he.1, Or.inl he⟩
        | some e =>
          obtain ⟨m, hm, hend⟩ := he
          exact ⟨m, hm, fun h ↦ absurd h (Option.some_ne_none e), hend⟩
      refine reads_advance (reads_newAst ?_)
      refine ReadsOrStuck.of_eq ((hopt.reads (Or.inl rfl) hnone hend.token).bind ?_) (Nat.add_zero _)
      exact ReadsOrStuck.of_eq (hend.reads.bind (reads_pure _ _)) rfl
  | nil i => exact .nil i
  | cons hs _ ih ih' => exact .cons hs.starts ih ih'

/-! ### Main results -/

theorem Ends.le (h : Ends toks i j) : i ≤ j := by
  rcases h with ⟨-, rfl⟩ | ⟨-, rfl⟩
  · exact Nat.le_succ _
  · exact Nat.le_refl _

theorem InitFrom.le {init : Option Expr} (h : InitFrom toks init i j) : i ≤ j := by
  cases init with
  | none => exact Nat.le_of_eq (Eq.symm h)
  | some e => exact (Nat.le_succ i).trans h.2.lt.le

theorem OptFrom.le {c : Option Expr} (h : OptFrom toks c i j) : i ≤ j := by
  cases c with
  | none => exact Nat.le_of_eq (Eq.symm h)
  | some e => exact (Derives.lt h).le

theorem DefaultFrom.le {d : Option U64} (h : DefaultFrom toks d i j) : i ≤ j := by
  cases d with
  | none => exact Nat.le_of_eq (Eq.symm h)
  | some v =>
    obtain ⟨-, -, rfl⟩ := h
    omega

theorem ParamsFrom.le {ps : List Param} (h : ParamsFrom toks ps i j) : i ≤ j := by
  induction ps generalizing i with
  | nil => exact h.elim
  | cons p rest ih =>
    cases rest with
    | nil =>
      have hd := DefaultFrom.le h.2.2
      omega
    | cons p' rest =>
      obtain ⟨m, ⟨-, -, hd⟩, -, hrest⟩ := h
      have hle := hd.le
      have hnext := ih hrest
      omega

theorem SignatureFrom.le {ps : Params} (h : SignatureFrom toks ps i j) : i ≤ j := by
  obtain ⟨-, ⟨-, -, rfl⟩ | ⟨m, hparams, -, -, rfl⟩⟩ := h
  · omega
  · have hle := hparams.le
    omega

theorem ForInitFrom.le {init : ForInit} (h : ForInitFrom toks init i j) : i ≤ j := by
  cases init with
  | none => exact h.2 ▸ Nat.le_succ i
  | decl x type init =>
    obtain ⟨-, -, m, hinit, -, rfl⟩ := h
    have hle := hinit.le
    omega
  | expr e =>
    obtain ⟨m, he, -, rfl⟩ := h
    have hlt := he.lt
    omega

theorem ReturnFrom.le {e : Option Expr} (h : ReturnFrom toks e i j) : i ≤ j := by
  cases e with
  | none => exact h.2 ▸ Nat.le_succ i
  | some e =>
    obtain ⟨m, he, hend⟩ := h
    exact he.lt.le.trans hend.le

/-- The tokens a clause takes at least. -/
def Clause.size : Clause → ℕ
  | .stmt _ => 1
  | .stmts ss => ss.length

/-- Every statement takes a token. -/
theorem Forms.size_le {c : Clause} (h : Forms toks c i j) : i + c.size ≤ j := by
  induction h with
  | expr he hend => exact Nat.le_trans he.lt hend.le
  | decl _ _ hinit hend =>
    have hle := hinit.le
    have hle' := hend.le
    simp only [Clause.size]
    omega
  | func _ _ hps _ _ _ ih =>
    have hle := hps.le
    simp only [Clause.size] at ih ⊢
    omega
  | block _ _ _ ih =>
    simp only [Clause.size] at ih ⊢
    omega
  | ifThen _ _ hc _ _ _ ih =>
    have hlt := hc.lt
    simp only [Clause.size] at ih ⊢
    omega
  | ifElse _ _ hc _ _ _ _ ih ih' =>
    have hlt := hc.lt
    simp only [Clause.size] at ih ih' ⊢
    omega
  | «while» _ _ hc _ _ ih =>
    have hlt := hc.lt
    simp only [Clause.size] at ih ⊢
    omega
  | «for» _ _ hinit hc _ hpost _ _ ih =>
    have hle := hinit.le
    have hle' := hc.le
    have hle'' := hpost.le
    simp only [Clause.size] at ih ⊢
    omega
  | ret _ he => exact he.le
  | nil i => exact Nat.le_refl i
  | cons _ _ ih ih' =>
    simp only [Clause.size, List.length_cons] at ih ih' ⊢
    omega

/-- When nothing is refused `noc_parse` takes a program for its trees. -/
theorem Program.reads {ss : List Stmt} (h : Program toks ss n) (hn : n < nocMaxToks) :
    ReadsOrStuck ParseRequest.taken (nocParse toks fuel) 0 ss n (programMemory ss) := by
  have hlen : ss.length ≤ n := by
    have hle := h.1.size_le
    simp only [Clause.size] at hle
    omega
  have hroom : ([] : List Stmt).length + ss.length < nocMaxNodes := by
    have hsize : n < 512 := hn
    change 0 + ss.length < 1024
    omega
  have hloop := h.1.read.2 fuel fuel [] h.2 hroom
  exact (reads_request (ParseRequest.array .stmts) 0).orStuck.bind hloop

theorem Program.result {ss : List Stmt} (h : Program toks ss n) (htoks : TokenArray toks n)
    (hfuel : n < fuel) : Reads ParseRequest.taken (nocParse toks fuel) 0 ss n (programMemory ss) := by
  have hends := Dialog.Always.result (nocParse_reaches htoks hfuel)
  exact (h.reads htoks.size).resolve_left hends.not_stuck

/-- When nothing is refused `noc_parse` fails exactly on the tokens that are no program. -/
theorem nocParse_result_eq_null_iff (htoks : TokenArray toks n) (hfuel : n < fuel) :
    (nocParse toks fuel 0).result.1 = .null ↔ ¬ ∃ ss, Program toks ss n := by
  constructor
  · rintro hnull ⟨ss, h⟩
    have hok := congrArg Prod.fst (h.result htoks hfuel).1
    exact absurd (hnull.symm.trans hok) (by rintro ⟨⟩)
  · intro hno
    have hends := Dialog.Always.result (nocParse_reaches htoks hfuel)
    have hyields : Yields KeepsDefaults (nocParse toks fuel) 0 fun ss n ↦ Program toks ss n :=
      nocParse_yields
    have hfound := Dialog.Under.result hyields.under fun _ _ ↦ rfl
    generalize (nocParse toks fuel 0).result = r at hends hfound
    match r with
    | (.ok ss, m) =>
      -- the only end of the input is at `n`
      obtain rfl : m = n := by
        by_contra hne
        exact htoks.only m (Nat.lt_of_le_of_ne hends.2 hne) hfound.2
      exact absurd ⟨ss, hfound⟩ hno
    | (.null, m) => rfl
    | (.stuck, m) => exact absurd rfl hends.not_stuck

/-- `noc_parse` takes a program of the grammar for its trees, if the arena has room for them. -/
theorem nocParse_program {ss : List Stmt} (h : Program toks ss n) (htoks : TokenArray toks n)
    (hfuel : n < fuel) {a : Arena} (ha : a.Fits (programMemory ss)) :
    (runParser toks fuel a).value = (.ok ss, n) := by
  obtain ⟨hvalue, hsize⟩ := h.result htoks hfuel
  have hmeets : Dialog.Meets (Arena.answer ParseRequest.size) a (nocParse toks fuel 0).demands := by
    refine meets_of_fits (fun r _ ↦ r.size_pos) ?_
    rw [← hsize] at ha
    exact ha
  rw [runParser, (Dialog.run_eq_of_meets hmeets).1, hvalue]

/-- When the arena refuses nothing, `noc_parse` accepts exactly the programs of the grammar, each with
its trees: the tokens up to the end of the input have at most one list of trees. -/
theorem nocParse_iff_program (htoks : TokenArray toks n) (hfuel : n < fuel) {a : Arena}
    (hgranted : ∀ r, .asked r false ∉ (runParser toks fuel a).acts) (ss : List Stmt) :
    (runParser toks fuel a).value = (.ok ss, n) ↔ Program toks ss n := by
  refine ⟨fun hvalue ↦ nocParse_derives toks fuel a hvalue (hgranted _), fun h ↦ ?_⟩
  rw [runParser, Dialog.run_eq_of_granted hgranted, (h.result htoks hfuel).1]

theorem tokenArray_callTokens : TokenArray (callTokens.getD · .eof) 9 :=
  ⟨by decide, rfl, by decide⟩

theorem nocParse_iff_program_callTokens :
    (runParser (callTokens.getD · .eof) 10 ⟨4096, 0, 2 ^ 20⟩).value = (.ok [callTree], 9) ↔
      Program (callTokens.getD · .eof) [callTree] 9 := by
  have hmeets : Dialog.Meets (Arena.answer ParseRequest.size) ⟨4096, 0, 2 ^ 20⟩
      (nocParse (callTokens.getD · .eof) 10 0).demands :=
    meets_of_fits (fun r _ ↦ r.size_pos) ⟨by decide, by decide +kernel, by decide⟩
  exact nocParse_iff_program tokenArray_callTokens (by decide) (Dialog.run_eq_of_meets hmeets).2
    [callTree]

end NoOsKernel.Noc
