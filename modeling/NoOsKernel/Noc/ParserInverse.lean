import NoOsKernel.Noc.ParserPrint

/-!
# The parser returns what was printed

`Parsed` collects what the functions of the parser make of an expression at every place. `Parsed.of_rank`
makes it from the function for the rank of the expression alone: the functions for weaker operators
pass the expression through, and those for stronger ones find it in parentheses. The induction on
expressions is `parsed`, and `parseExpr_print` is the round trip.
-/

set_option autoImplicit false
set_option relaxedAutoImplicit false

namespace NoOsKernel.Noc

open Lib Scan

variable {toks : ℕ → Tok} {i j f loops fuel r n : ℕ} {t : Term} {expr : Parse Expr}

/-! ### From one rank to all places -/

/-- What stands at a place for postfix operators does not begin with a unary operator. -/
theorem isUnary_head (t : Term) (h : Spans toks i (t.print 0) j) : isUnary (toks i) = false := by
  by_cases hrank : t.rank = 0
  · rw [Term.print_eq_bare hrank.le] at h
    cases t with
    | num v => rw [h.1]; rfl
    | bool b => rw [h.1]; cases b <;> rfl
    | str s => rw [h.1]; rfl
    | var x => rw [h.1]; rfl
    | call g args => rw [h.1]; rfl
    | postinc x plus => rw [h.1]; rfl
    | un op a => exact absurd hrank Nat.one_ne_zero
    | preinc x plus => exact absurd hrank Nat.one_ne_zero
    | bin op a b => exact absurd hrank (Nat.ne_of_gt (Nat.lt_of_succ_lt op.two_le_rank))
    | assign op x a => exact absurd hrank (Nat.succ_ne_zero 11)
  · rw [Term.print_eq_paren (Nat.pos_of_ne_zero hrank)] at h
    rw [h.1]
    rfl

/-- `parse_unary` passes on what does not begin with an operator. -/
theorem Climbs.unary (h : Climbs toks t 0) (hrank : t.rank ≠ 1) : Climbs toks t 1 := by
  intro f loops fuel i j hspan hstop
  rw [Term.print_succ hrank] at hspan
  have hhead := isUnary_head t hspan
  cases fuel with
  | zero => exact readsOrStuck_stuck t.tree i j _
  | succ fuel =>
    refine reads_cur ?_
    rw [hhead, if_neg Bool.false_ne_true]
    exact h f loops fuel i j hspan (hstop.mono (Nat.zero_le 1))

/-- The function for the next rank passes on an expression that is not of that rank. -/
theorem Climbs.succ (h : Climbs toks t r) (hrank : t.rank ≠ r + 1) : Climbs toks t (r + 1) := by
  cases r with
  | zero => exact h.unary hrank
  | succ r => exact (h.leads hrank).climbs

/-- `parse_assign` passes on what is no assignment. -/
theorem Climbs.assigns (h : Climbs toks t 11) (hrank : t.rank ≤ 11) : Assigns toks t := by
  intro f loops fuel i j hspan hstop
  cases fuel with
  | zero => exact readsOrStuck_stuck t.tree i j _
  | succ fuel =>
    rw [← Term.print_eq_bare hrank] at hspan
    have hlhs := h f loops loops i j hspan (hstop.mono (by decide))
    refine ReadsOrStuck.of_eq (hlhs.bind (reads_cur ?_)) (Nat.add_zero _)
    have hnone : assignOps.lookup (toks j) = none := by
      refine List.lookup_eq_none_iff.mpr fun entry hentry ↦ bne_iff_ne.mpr fun heq ↦ ?_
      have hop : ∀ entry ∈ assignOps, ∃ op : AssignOp, entry.1 = op.token := by
        simp only [assignOps, List.forall_mem_cons]
        exact ⟨⟨.assign, rfl⟩, ⟨.add, rfl⟩, ⟨.sub, rfl⟩, ⟨.mul, rfl⟩, ⟨.div, rfl⟩,
          fun _ hnil ↦ absurd hnil List.not_mem_nil⟩
      obtain ⟨op, hop⟩ := hop entry hentry
      exact hstop.assign op (by decide) (heq.trans hop)
    rw [hnone]
    exact reads_pure t.tree j

/-- An expression in parentheses. -/
theorem Assigns.paren (h : Assigns toks t) (hrank : 0 < t.rank) : Climbs toks t 0 := by
  intro f loops fuel i j hspan hstop
  rw [Term.print_eq_paren hrank] at hspan
  obtain ⟨hlp, hrest⟩ := hspan
  obtain ⟨m, hbare, hrp, rfl⟩ := spans_append.mp hrest
  have hinner := h.parsed (f := f) hbare (stops_closing (by rw [hrp]; decide) 12)
  have hprimary : ReadsOrStuck ParseRequest.taken (parsePrimary toks (parseExpr toks f)) i t.tree
      (m + 1) t.memory := by
    refine reads_cur ?_
    rw [hlp]
    refine reads_advance ?_
    refine ReadsOrStuck.of_eq (hinner.attempt.bind (reads_expect hrp ?_)) (Nat.add_zero _)
    exact reads_pure t.tree (m + 1)
  exact ReadsOrStuck.of_eq (hprimary.bind (postfixLoop_reads hstop t.tree)) (Nat.add_zero _)

variable (toks) in
/-- What the parser makes of an expression at every place. -/
structure Parsed (t : Term) : Prop where
  climbs : ∀ r ≤ 11, Climbs toks t r
  leads : ∀ r, r + 2 ≤ 11 → Leads toks t r
  assigns : Assigns toks t

/-- What the function for the rank of an expression makes of it decides about the other ones. -/
theorem Parsed.of_rank (hclimbs : t.rank ≤ 11 → Climbs toks t t.rank)
    (hleads : ∀ r, t.rank = r + 2 → t.rank ≤ 11 → Leads toks t r)
    (hassigns : 11 < t.rank → Assigns toks t) : Parsed toks t := by
  have habove : ∀ r, t.rank ≤ r → r ≤ 11 → Climbs toks t r := by
    intro r hle
    induction r, hle using Nat.le_induction with
    | base => exact hclimbs
    | succ r hle ih => exact fun hr ↦ (ih (Nat.le_of_succ_le hr)).succ (by omega)
  have hall : Assigns toks t := by
    rcases Nat.lt_or_ge 11 t.rank with hlt | hle
    · exact hassigns hlt
    · exact (habove 11 hle le_rfl).assigns hle
  have hbelow : ∀ r < t.rank, Climbs toks t r := by
    intro r
    induction r with
    | zero => exact fun hpos ↦ hall.paren hpos
    | succ r ih => exact fun hlt ↦ (ih (Nat.lt_of_succ_lt hlt)).succ (by omega)
  have hclimb : ∀ r ≤ 11, Climbs toks t r := fun r hr ↦
    (Nat.lt_or_ge r t.rank).elim (hbelow r) fun hle ↦ habove r hle hr
  refine ⟨hclimb, fun r hr ↦ ?_, hall⟩
  by_cases hrank : t.rank = r + 2
  · exact hleads r hrank (by omega)
  · exact (hclimb (r + 1) (by omega)).leads hrank

/-- An expression without operators but postfix ones. -/
theorem Parsed.of_parsePostfix (hrank : t.rank = 0) (h : Climbs toks t 0) : Parsed toks t :=
  .of_rank (fun _ ↦ by rwa [hrank]) (fun r heq ↦ by omega) fun hlt ↦ by omega

/-! ### Terminals and postfix operators -/

/-- A terminal, up to the loop over the postfix operators. -/
theorem parsePostfix_of_leaf {e e' : Expr}
    (hleaf : ReadsOrStuck ParseRequest.taken (parsePrimary toks expr) i e (i + 1) (roundUp astSize))
    (hloop : ReadsOrStuck ParseRequest.taken (postfixLoop toks expr loops e) (i + 1) e' j n) :
    ReadsOrStuck ParseRequest.taken (climb toks expr loops fuel 0) i e' j (roundUp astSize + n) :=
  hleaf.bind hloop

theorem parsed_num (v : U64) : Parsed toks (.num v) := by
  refine .of_parsePostfix rfl fun f loops fuel i j hspan hstop ↦ ?_
  obtain ⟨htok, rfl⟩ := hspan
  refine parsePostfix_of_leaf (reads_cur ?_) (postfixLoop_reads hstop _)
  rw [htok]
  exact leaf_reads _ i

theorem parsed_bool (b : Bool) : Parsed toks (.bool b) := by
  refine .of_parsePostfix rfl fun f loops fuel i j hspan hstop ↦ ?_
  obtain ⟨htok, rfl⟩ := hspan
  refine parsePostfix_of_leaf (reads_cur ?_) (postfixLoop_reads hstop _)
  rw [htok]
  cases b <;> exact leaf_reads _ i

theorem parsed_str (s : Name) : Parsed toks (.str s) := by
  refine .of_parsePostfix rfl fun f loops fuel i j hspan hstop ↦ ?_
  obtain ⟨htok, rfl⟩ := hspan
  refine parsePostfix_of_leaf (reads_cur ?_) (postfixLoop_reads hstop _)
  rw [htok]
  exact leaf_reads _ i

theorem parsePrimary_var {x : Name} (htok : toks i = .ident x) :
    ReadsOrStuck ParseRequest.taken (parsePrimary toks expr) i (.var x) (i + 1)
      (roundUp astSize) := by
  refine reads_cur ?_
  rw [htok]
  exact leaf_reads _ i

theorem parsed_var (x : Name) : Parsed toks (.var x) := by
  refine .of_parsePostfix rfl fun f loops fuel i j hspan hstop ↦ ?_
  obtain ⟨htok, rfl⟩ := hspan
  exact parsePostfix_of_leaf (parsePrimary_var htok) (postfixLoop_reads hstop _)

theorem parsed_postinc (x : Name) (plus : Bool) : Parsed toks (.postinc x plus) := by
  refine .of_parsePostfix rfl fun f loops fuel i j hspan hstop ↦ ?_
  obtain ⟨htok, hinc, rfl⟩ := hspan
  refine ReadsOrStuck.of_eq (parsePostfix_of_leaf (parsePrimary_var htok) (j := i + 1 + 1)
    (n := roundUp astSize) ?_) (Nat.two_mul _).symm
  cases loops with
  | zero => exact readsOrStuck_stuck _ _ _ _
  | succ loops =>
    have hnew : ReadsOrStuck ParseRequest.taken (do
        newAst
        postfixLoop toks (parseExpr toks f) loops (.postinc x plus)) (i + 1 + 1)
        (.postinc x plus) (i + 1 + 1) (roundUp astSize) :=
      ReadsOrStuck.of_eq (reads_newAst (postfixLoop_reads hstop _)) (Nat.add_zero _)
    refine reads_cur ?_
    rw [hinc]
    cases plus with
    | true => exact reads_advance hnew
    | false => exact reads_advance hnew

/-! ### Calls -/

/-- The loop over the arguments of a call. -/
theorem argLoop_reads {a : Term} {args : List Term} (hargs : ∀ b ∈ a :: args, Parsed toks b)
    {allocated : Bool} {done : List Expr} (hroom : done.length + args.length < nocMaxArgs)
    (hspan : Spans toks i (a.bare ++ Term.laterTokens args) j) (hrp : toks j = .rp) :
    ReadsOrStuck ParseRequest.taken (argLoop toks (parseExpr toks f) fuel allocated done) i
      (done ++ Term.trees (a :: args)) j
      ((if allocated then 0 else roundUp (8 * nocMaxArgs)) + Term.argMemory (a :: args)) := by
  induction fuel generalizing i a args allocated done with
  | zero => exact readsOrStuck_stuck _ _ _ _
  | succ fuel ih =>
    obtain ⟨m, hbare, hlater⟩ := spans_append.mp hspan
    have hclosing : toks m ∈ [Tok.rp, .comma, .eof] := by
      cases args with
      | nil =>
        rw [show m = j from hlater, hrp]
        decide
      | cons b args =>
        rw [hlater.1]
        decide
    have harg := (hargs a List.mem_cons_self).assigns.parsed (f := f) hbare
      (stops_closing hclosing 12)
    -- the rest of the round, with the array there
    have hrest : ReadsOrStuck ParseRequest.taken (do
        report (.put .callArgs (!true) done.length)
        let more ← accept toks .comma
        if more then argLoop toks (parseExpr toks f) fuel true (done ++ [a.tree])
        else pure (done ++ [a.tree])) m (done ++ Term.trees (a :: args)) j
        (Term.argMemory args) := by
      have hput : Does (fun _ ↦ True) (report (.put .callArgs (!true) done.length) : Parse Unit)
          m () m := does_report trivial m
      refine hput.readsOrStuck_bind ?_
      cases args with
      | nil =>
        obtain rfl : m = j := hlater
        have hmore : toks m ≠ .comma := by rw [hrp]; decide
        exact reads_accept_not hmore (reads_pure _ m)
      | cons b args =>
        obtain ⟨hcomma, hspan'⟩ := hlater
        refine reads_accept hcomma ?_
        have hlen : (done ++ [a.tree]).length + args.length < nocMaxArgs := by
          rw [List.length_append, List.length_singleton]
          rw [List.length_cons] at hroom
          omega
        have hnext := @ih _ b args (fun c hc ↦ hargs c (List.mem_cons_of_mem a hc)) true
          (done ++ [a.tree]) hlen hspan'
        rw [if_pos rfl, Nat.zero_add, List.append_assoc] at hnext
        exact hnext
    have hlt : ¬ nocMaxArgs ≤ done.length := by omega
    rw [argLoop, Term.argMemory]
    refine ReadsOrStuck.of_eq (harg.bind (n := (if allocated then 0 else roundUp (8 * nocMaxArgs)) +
      Term.argMemory args) ?_) (by omega)
    rw [if_neg hlt]
    cases allocated with
    | true =>
      refine ReadsOrStuck.of_eq ((reads_pure true m).bind hrest) rfl
    | false => exact (reads_request _ m).orStuck.bind hrest

/-- An expression does not begin with the parenthesis behind the arguments of a call. -/
theorem Term.bare_head : (t : Term) → ∃ tok rest, t.bare = tok :: rest ∧ tok ≠ .rp
  | .num _ => ⟨_, _, rfl, nofun⟩
  | .bool true => ⟨_, _, rfl, nofun⟩
  | .bool false => ⟨_, _, rfl, nofun⟩
  | .str _ => ⟨_, _, rfl, nofun⟩
  | .var _ => ⟨_, _, rfl, nofun⟩
  | .call _ _ => ⟨_, _, rfl, nofun⟩
  | .un .neg _ => ⟨_, _, rfl, nofun⟩
  | .un .not _ => ⟨_, _, rfl, nofun⟩
  | .un .bnot _ => ⟨_, _, rfl, nofun⟩
  | .preinc _ true => ⟨_, _, rfl, nofun⟩
  | .preinc _ false => ⟨_, _, rfl, nofun⟩
  | .postinc _ _ => ⟨_, _, rfl, nofun⟩
  | .assign _ _ _ => ⟨_, _, rfl, nofun⟩
  | .bin op a b => by
    obtain ⟨tok, rest, hbare, hne⟩ := Term.bare_head a
    rw [Term.bare, Term.enclose]
    split_ifs
    · exact ⟨.lp, _, rfl, nofun⟩
    · rw [hbare]
      exact ⟨tok, _, rfl, hne⟩

/-- The arguments of a call, with no array if there are none. -/
theorem parseArgs_reads {args : List Term} (hargs : ∀ a ∈ args, Parsed toks a)
    (hroom : args.length ≤ nocMaxArgs) (hspan : Spans toks i (Term.argTokens args) j)
    (hrp : toks j = .rp) :
    ReadsOrStuck ParseRequest.taken (parseArgs toks (parseExpr toks f) fuel) i (Term.trees args) j
      (Term.arraySize args + Term.argMemory args) := by
  refine reads_cur ?_
  cases args with
  | nil =>
    obtain rfl : i = j := hspan
    rw [if_pos hrp]
    exact reads_pure [] i
  | cons a args =>
    obtain ⟨tok, rest, hbare, hne⟩ := Term.bare_head a
    have hhead : toks i ≠ .rp := by
      obtain ⟨m, hfirst, -⟩ := spans_append.mp hspan
      rw [hbare] at hfirst
      rw [hfirst.1]
      exact hne
    have hlen : ([] : List Expr).length + args.length < nocMaxArgs := by
      rw [List.length_nil, Nat.zero_add]
      exact hroom
    rw [if_neg hhead, Term.arraySize, if_neg (List.cons_ne_nil a args)]
    exact argLoop_reads hargs hlen hspan hrp

theorem parsed_call (g : Name) {args : List Term} (hargs : ∀ a ∈ args, Parsed toks a)
    (hroom : args.length ≤ nocMaxArgs) : Parsed toks (.call g args) := by
  refine .of_parsePostfix rfl fun f loops fuel i j hspan hstop ↦ ?_
  obtain ⟨htok, hlp, hrest⟩ := hspan
  obtain ⟨m, hspan, hrp, rfl⟩ := spans_append.mp hrest
  refine ReadsOrStuck.of_eq (parsePostfix_of_leaf (parsePrimary_var htok) (j := m + 1)
    (n := roundUp astSize + (Term.arraySize args + Term.argMemory args)) ?_)
    (by rw [Term.memory]; omega)
  cases loops with
  | zero => exact readsOrStuck_stuck _ _ _ _
  | succ loops =>
    refine reads_cur ?_
    rw [hlp]
    refine reads_advance (reads_newAst ?_)
    refine ReadsOrStuck.of_eq ((parseArgs_reads hargs hroom hspan hrp).bind (reads_expect hrp ?_))
      (Nat.add_zero _)
    exact postfixLoop_reads hstop _

/-! ### Unary operators -/

/-- An operator in front of what `parse_unary` parses. -/
theorem parseUnary_reads {tok : Tok} {a e : Expr} (htok : toks i = tok) (hunary : isUnary tok = true)
    (h : ∀ fuel, ReadsOrStuck ParseRequest.taken (parseUnary toks expr loops fuel) (i + 1) a j n)
    (hnode : unaryNode tok a = pure e) :
    ReadsOrStuck ParseRequest.taken (climb toks expr loops fuel 1) i e j (roundUp astSize + n) := by
  cases fuel with
  | zero => exact readsOrStuck_stuck _ _ _ _
  | succ fuel =>
    refine reads_cur ?_
    rw [htok, if_pos hunary]
    refine reads_advance (reads_newAst ?_)
    refine ReadsOrStuck.of_eq ((h fuel).bind ?_) (Nat.add_zero _)
    rw [hnode]
    exact reads_pure e j

theorem parsed_un (op : UnOp) {a : Term} (ha : Parsed toks a) : Parsed toks (.un op a) := by
  refine .of_rank (fun _ f loops fuel i j hspan hstop ↦ ?_) (fun r heq ↦ absurd heq (by
    change 1 ≠ r + 2
    omega)) fun hlt ↦ absurd hlt (by change ¬ 11 < 1; omega)
  obtain ⟨htok, hspan⟩ := hspan
  have hoperand (fuel : ℕ) := ha.climbs 1 (by decide) f loops fuel (i + 1) j hspan hstop
  cases op with
  | neg => exact parseUnary_reads htok rfl hoperand rfl
  | not => exact parseUnary_reads htok rfl hoperand rfl
  | bnot => exact parseUnary_reads htok rfl hoperand rfl

theorem parsed_preinc (x : Name) (plus : Bool) : Parsed toks (.preinc x plus) := by
  refine .of_rank (fun _ f loops fuel i j hspan hstop ↦ ?_) (fun r heq ↦ absurd heq (by
    change 1 ≠ r + 2
    omega)) fun hlt ↦ absurd hlt (by change ¬ 11 < 1; omega)
  obtain ⟨htok, hspan⟩ := hspan
  have hoperand (fuel : ℕ) :=
    (parsed_var x).climbs 1 (by decide) f loops fuel (i + 1) j hspan hstop
  refine ReadsOrStuck.of_eq ?_ (Nat.two_mul _).symm
  cases plus with
  | true => exact parseUnary_reads htok rfl hoperand rfl
  | false => exact parseUnary_reads htok rfl hoperand rfl

/-! ### Operators with two operands -/

/-- Behind its left operand an operator is in the loop of its rank, which goes on with the node over
both operands. -/
theorem leads_bin (op : Operator) {a b : Term} (ha : Parsed toks a) (hb : Parsed toks b)
    (hrank : op.rank = r + 2) : Leads toks (.bin op a b) r := by
  have hle := op.rank_le
  intro f loops fuel i m hspan hstop e j n hloop
  have hbare : (Term.bin op a b).print (r + 2) =
      a.print op.rank ++ op.token :: b.print (op.rank - 1) := Term.print_eq_bare hrank.le
  rw [hbare] at hspan
  obtain ⟨k, hleft, htok, hright⟩ := spans_append.mp hspan
  have hop := stops_operator op
  rw [hrank] at hleft hright hop
  rw [← htok] at hop
  refine ReadsOrStuck.of_eq (ha.leads r (by omega) f loops fuel i k hleft hop e j
    (b.memory + (roundUp astSize + n)) fun loops' ↦ ?_) (by rw [Term.memory]; omega)
  cases loops' with
  | zero => exact readsOrStuck_stuck _ _ _ _
  | succ loops' =>
    refine reads_cur ?_
    rw [htok, ← hrank, op.lookup_token]
    refine reads_advance ?_
    rw [hrank]
    refine (hb.climbs (r + 1) (by omega) f loops fuel (k + 1) m hright hstop).bind ?_
    exact reads_newAst (hloop loops')

theorem parsed_bin (op : Operator) {a b : Term} (ha : Parsed toks a) (hb : Parsed toks b) :
    Parsed toks (.bin op a b) := by
  have htwo := op.two_le_rank
  have hle := op.rank_le
  obtain ⟨r, hrank⟩ := Nat.exists_eq_add_of_le' htwo
  refine .of_rank (fun _ ↦ ?_) (fun r' heq _ ↦ leads_bin op ha hb heq) fun hlt ↦ ?_
  · have hrank' : (Term.bin op a b).rank = r + 2 := hrank
    rw [hrank']
    exact (leads_bin op ha hb hrank).climbs
  · exact absurd hle (Nat.not_le_of_lt hlt)

/-! ### Assignments -/

theorem parsed_assign (op : AssignOp) (x : Name) {a : Term} (ha : Parsed toks a) :
    Parsed toks (.assign op x a) := by
  refine .of_rank (fun hle ↦ absurd hle (by change ¬ 12 ≤ 11; omega)) (fun r heq hle ↦ absurd hle (by
    change ¬ 12 ≤ 11
    omega)) fun _ f loops fuel i j hspan hstop ↦ ?_
  obtain ⟨hvar, htok, hspan⟩ := hspan
  cases fuel with
  | zero => exact readsOrStuck_stuck _ _ _ _
  | succ fuel =>
    have hop : Stops 11 op.token := by
      refine ⟨?_, fun plus ↦ ?_, fun op' _ ↦ ?_, fun op' hle ↦ absurd hle (by decide)⟩
      · cases op <;> nofun
      · cases op <;> cases plus <;> nofun
      · have hall : ∀ op' ∈ Operator.all, ∀ op : AssignOp, op.token ≠ op'.token := by
          intro op' hop' op
          cases op <;> revert op' <;> decide
        exact hall op' op'.mem_all op
    have hlookup : assignOps.lookup op.token = some op := by cases op <;> rfl
    have hlhs := (parsed_var x).climbs 11 le_rfl f loops loops i (i + 1) ⟨hvar, rfl⟩ (by rwa [htok])
    refine ReadsOrStuck.of_eq (hlhs.bind (reads_cur (n := a.memory + roundUp astSize) ?_))
      (by
        change roundUp astSize + (a.memory + roundUp astSize) = 2 * roundUp astSize + a.memory
        omega)
    rw [htok, hlookup]
    refine reads_advance ((ha.assigns f loops fuel (i + 1 + 1) j hspan hstop).bind ?_)
    exact ReadsOrStuck.of_eq (reads_newAst (reads_pure _ j)) (Nat.add_zero _)

/-! ### All expressions -/

mutual

theorem parsed : (t : Term) → t.CallsFit → Parsed toks t
  | .num v, _ => parsed_num v
  | .bool b, _ => parsed_bool b
  | .str s, _ => parsed_str s
  | .var x, _ => parsed_var x
  | .call g args, h => parsed_call g (parsed_args args h.2) h.1
  | .un op a, h => parsed_un op (parsed a h)
  | .preinc x plus, _ => parsed_preinc x plus
  | .postinc x plus, _ => parsed_postinc x plus
  | .bin op a b, h => parsed_bin op (parsed a h.1) (parsed b h.2)
  | .assign op x a, h => parsed_assign op x (parsed a h)

theorem parsed_args : (args : List Term) → Term.ArgsFit args → ∀ a ∈ args, Parsed toks a
  | [], _ => fun _ ha ↦ absurd ha List.not_mem_nil
  | a :: args, h =>
    List.forall_mem_cons.mpr ⟨parsed a h.1, parsed_args args h.2⟩

end

theorem eof_notMem_enclose {ts : List Tok} (h : Tok.eof ∉ ts) (most rank : ℕ) :
    Tok.eof ∉ Term.enclose most rank ts := by
  rw [Term.enclose]
  split_ifs
  · rw [List.mem_cons, List.mem_append, List.mem_singleton]
    exact fun hmem ↦ hmem.elim nofun fun hmem ↦ hmem.elim h nofun
  · exact h

mutual

/-- No token of an expression is the `EOF`. -/
theorem Term.eof_notMem_bare : (t : Term) → Tok.eof ∉ t.bare
  | .num _ => fun hmem ↦ absurd (List.mem_singleton.mp hmem) nofun
  | .bool true => by decide
  | .bool false => by decide
  | .str _ => fun hmem ↦ absurd (List.mem_singleton.mp hmem) nofun
  | .var _ => fun hmem ↦ absurd (List.mem_singleton.mp hmem) nofun
  | .call _ args => by
    have hargs := Term.eof_notMem_argTokens args
    simp only [Term.bare, List.mem_cons, List.mem_append, reduceCtorEq, hargs, List.not_mem_nil,
      or_self, not_false_eq_true]
  | .un op a => by
    have ha := eof_notMem_enclose (Term.eof_notMem_bare a) 1 a.rank
    rw [Term.bare, List.mem_cons, not_or]
    exact ⟨by cases op <;> nofun, ha⟩
  | .preinc x plus => by cases plus <;> exact fun hmem ↦ by simp [Term.bare, incToken] at hmem
  | .postinc x plus => by cases plus <;> exact fun hmem ↦ by simp [Term.bare, incToken] at hmem
  | .bin op a b => by
    have ha := eof_notMem_enclose (Term.eof_notMem_bare a) op.rank a.rank
    have hb := eof_notMem_enclose (Term.eof_notMem_bare b) (op.rank - 1) b.rank
    have hall : ∀ op ∈ Operator.all, Tok.eof ≠ op.token := by decide
    rw [Term.bare, List.mem_append, List.mem_cons, not_or, not_or]
    exact ⟨ha, hall op op.mem_all, hb⟩
  | .assign op x a => by
    rw [Term.bare, List.mem_cons, List.mem_cons, not_or, not_or]
    exact ⟨nofun, by cases op <;> nofun, Term.eof_notMem_bare a⟩

theorem Term.eof_notMem_argTokens : (args : List Term) → Tok.eof ∉ Term.argTokens args
  | [] => List.not_mem_nil
  | a :: args => by
    rw [Term.argTokens, List.mem_append, not_or]
    exact ⟨Term.eof_notMem_bare a, Term.eof_notMem_laterTokens args⟩

theorem Term.eof_notMem_laterTokens : (args : List Term) → Tok.eof ∉ Term.laterTokens args
  | [] => List.not_mem_nil
  | a :: args => by
    rw [Term.laterTokens, List.mem_cons, List.mem_append, not_or, not_or]
    exact ⟨nofun, Term.eof_notMem_bare a, Term.eof_notMem_laterTokens args⟩

end

theorem Spans.mem {ts : List Tok} (h : Spans toks i ts j) {k : ℕ} (hi : i ≤ k) (hk : k < j) :
    toks k ∈ ts := by
  induction ts generalizing i with
  | nil =>
    obtain rfl : i = j := h
    omega
  | cons t ts ih =>
    obtain ⟨htok, hrest⟩ := h
    rcases hi.eq_or_lt with rfl | hlt
    · rw [htok]
      exact List.mem_cons_self
    · exact List.mem_cons_of_mem t (ih hrest hlt)

theorem ParseRequest.size_pos (r : ParseRequest) : 0 < r.size := by
  rcases r with _ | _ | arr
  · decide
  · decide
  · cases arr <;> decide

/-- `parse_expr` makes of a printed expression, with the `EOF` behind it, the tree of the expression,
and takes all its tokens. -/
theorem parseExpr_print (ht : t.CallsFit) (hspan : Spans toks 0 (t.print 12) n)
    (heof : toks n = .eof) (hn : n < nocMaxToks) (hfuel : n < fuel) {a : Arena}
    (ha : a.Fits t.memory) :
    ((parseExpr toks fuel 0).run (Arena.answer ParseRequest.size) a).value = (.ok t.tree, n) := by
  rw [Term.print_eq_bare t.rank_le] at hspan
  have htoks : TokenArray toks n := ⟨hn, heof, fun k hk heq ↦
    t.eof_notMem_bare (heq ▸ hspan.mem (Nat.zero_le k) hk)⟩
  have hreads := (parsed t ht).assigns.parsed (f := fuel) hspan
    (stops_closing (by rw [heof]; decide) 12)
  have hends := Dialog.Always.result (parseExpr_progress htoks (by omega : n < 0 + fuel) 0 le_rfl
    (Nat.zero_le n))
  obtain ⟨hvalue, hsize⟩ := hreads.resolve_left hends.not_stuck
  have hmeets : Dialog.Meets (Arena.answer ParseRequest.size) a (parseExpr toks fuel 0).demands := by
    refine meets_of_fits (fun r _ ↦ r.size_pos) ?_
    rw [← hsize] at ha
    exact ha
  rw [(Dialog.run_eq_of_meets hmeets).1, hvalue]

/-- `x = 1 - (2 - -y)` -/
def nestedMinus : Term :=
  .assign .assign [0x78] (.bin (.strict .sub) (.num 1)
    (.bin (.strict .sub) (.num 2) (.un .neg (.var [0x79]))))

/-- The expression in the arena of a line. -/
theorem parseExpr_print_nestedMinus :
    ((parseExpr (fun i ↦ (nestedMinus.print 12).getD i .eof) 11 0).run
      (Arena.answer ParseRequest.size) ⟨0x100000#64, 12288#64, 0x100000#64⟩).value =
        (.ok nestedMinus.tree, 10) :=
  @parseExpr_print (fun i ↦ (nestedMinus.print 12).getD i .eof) 11 10 nestedMinus
    ⟨trivial, trivial, trivial⟩ ⟨rfl, rfl, rfl, rfl, rfl, rfl, rfl, rfl, rfl, rfl, rfl⟩ rfl
    (by decide) (by decide) ⟨0x100000#64, 12288#64, 0x100000#64⟩
    ⟨by decide, by decide, by decide⟩

end NoOsKernel.Noc
