import NoOsKernel.Noc.Parser

/-!
# The parser stays inside of its tokens

No array of the parser but that of its arguments and that of its parameters is checked for room in
time. What keeps the other writes in bounds is that every statement takes a token, that the token
behind the last one is an `EOF` no function goes over, and that there are not more tokens than an
array has entries. A function of the parser that starts at `i` needs more fuel than there are tokens
from `i` on.
-/

set_option autoImplicit false
set_option relaxedAutoImplicit false

namespace NoOsKernel.Noc

open Lib Scan

/-- `n` tokens and the only `EOF` behind them. -/
structure TokenArray (toks : ℕ → Tok) (n : ℕ) : Prop where
  size : n < nocMaxToks
  last : toks n = .eof
  only : ∀ i < n, toks i ≠ .eof

/-- The tokens that are inspected are in their array, and what is written in its own. -/
def InBounds (n : ℕ) : ParseEvent → Prop
  | .tok i => i ≤ n
  | .put arr _ k => k < arr.capacity
  | _ => True

/-- A function of the parser that takes a token at least, from `lo` or from any token behind. -/
def Progress {α : Type} (n : ℕ) (p : Parse α) (lo : ℕ) : Prop :=
  ∀ i, lo ≤ i → i ≤ n → Reaches (InBounds n) n p i (i + 1)

variable {toks : ℕ → Tok} {n i lo fuel : ℕ} {α β : Type}

theorem Progress.mono {p : Parse α} {lo' : ℕ} (h : Progress n p lo) (hle : lo ≤ lo') :
    Progress n p lo' :=
  fun i hi ↦ h i (hle.trans hi)

/-- A token that is no `EOF` has one behind it. -/
theorem TokenArray.succ_le (htoks : TokenArray toks n) (hi : i ≤ n) (hne : toks i ≠ .eof) :
    i + 1 ≤ n := by
  refine Nat.lt_of_le_of_ne hi ?_
  rintro rfl
  exact hne htoks.last

/-! ### Single tokens -/

section Tokens

variable {ok : ParseEvent → Prop} {t : Tok} {what : ParseError}

theorem cur_does (h : ok (.tok i)) : Does ok (cur toks) i (toks i) i :=
  (does_pos ok i).bind ((does_report h i).bind (does_pure ok _ i))

theorem accept_does (h : ok (.tok i)) (ht : toks i = t) : Does ok (accept toks t) i true (i + 1) := by
  refine (cur_does h).bind ?_
  rw [if_pos ht]
  exact (does_advance ok 1 i).bind (does_pure ok _ _)

theorem accept_does_not (h : ok (.tok i)) (ht : toks i ≠ t) : Does ok (accept toks t) i false i := by
  refine (cur_does h).bind ?_
  rw [if_neg ht]
  exact does_pure ok _ i

theorem expect_does (h : ok (.tok i)) (ht : toks i = t) : Does ok (expect toks t what) i () (i + 1) := by
  refine (cur_does h).bind ?_
  rw [if_pos ht]
  exact does_advance ok 1 i

variable {q : Bool → Parse β} {r : Unit → Parse β}

theorem reaches_cur {f : Tok → Parse β} (hi : i ≤ n) (hf : Reaches (InBounds n) n (f (toks i)) i lo) :
    Reaches (InBounds n) n (cur toks >>= f) i lo :=
  (cur_does hi).ensures hf

theorem reaches_advance {k : ℕ} (hf : Reaches (InBounds n) n (r ()) (i + k) lo) :
    Reaches (InBounds n) n (advance k >>= r) i lo :=
  (does_advance _ k i).ensures hf

theorem reaches_put {arr : NodeArray} {null : Bool} {k : ℕ} (hk : k < arr.capacity)
    (hf : Reaches (InBounds n) n (r ()) i lo) :
    Reaches (InBounds n) n (report (.put arr null k) >>= r) i lo := by
  have hin : InBounds n (.put arr null k) := hk
  exact (does_report hin i).ensures hf

theorem reaches_accept (htoks : TokenArray toks n) (ht : t ≠ .eof) (hi : i ≤ n)
    (hyes : i + 1 ≤ n → Reaches (InBounds n) n (q true) (i + 1) lo)
    (hno : Reaches (InBounds n) n (q false) i lo) :
    Reaches (InBounds n) n (accept toks t >>= q) i lo := by
  by_cases hcur : toks i = t
  · have hne : toks i ≠ .eof := hcur ▸ ht
    exact (accept_does hi hcur).ensures (hyes (htoks.succ_le hi hne))
  · exact (accept_does_not hi hcur).ensures hno

theorem expect_reaches (htoks : TokenArray toks n) (ht : t ≠ .eof) (hi : i ≤ n) :
    Reaches (InBounds n) n (expect toks t what) i (i + 1) := by
  refine reaches_cur hi ?_
  by_cases hcur : toks i = t
  · have hne : toks i ≠ .eof := hcur ▸ ht
    rw [if_pos hcur]
    exact ⟨Nat.le_refl _, htoks.succ_le hi hne⟩
  · rw [if_neg hcur]
    exact reaches_failWith trivial hi

theorem semiOk_reaches (htoks : TokenArray toks n) (hi : i ≤ n) :
    Reaches (InBounds n) n (semiOk toks) i i := by
  refine reaches_accept htoks (by rintro ⟨⟩) hi (fun hi' ↦ reaches_pure () (Nat.le_succ i) hi') ?_
  refine reaches_cur hi ?_
  split
  · exact reaches_pure () (Nat.le_refl i) hi
  · exact reaches_failWith trivial hi

theorem reaches_newAst (hi : i ≤ n) (hf : Reaches (InBounds n) n (r ()) i lo) :
    Reaches (InBounds n) n (newAst >>= r) i lo := by
  refine reaches_behind (ensures_bind (request_stays _) ?_) fun _ ↦ hf
  rintro granted j rfl
  split
  · exact ensures_pure rfl
  · exact ensures_failWith trivial hi

theorem reaches_checkedArray {arr : NodeArray} {memory : ParseError} {allocated : Bool} (hi : i ≤ n)
    (hf : Reaches (InBounds n) n (r ()) i lo) :
    Reaches (InBounds n) n (checkedArray arr memory allocated >>= r) i lo := by
  refine reaches_behind ?_ fun _ ↦ hf
  unfold checkedArray
  split
  · exact ensures_pure rfl
  · refine ensures_bind (request_stays _) ?_
    rintro granted j rfl
    split
    · exact ensures_pure rfl
    · exact ensures_failWith trivial hi

end Tokens

/-! ### Expressions -/

theorem leaf_reaches {e : Expr} (hi : i + 1 ≤ n) : Reaches (InBounds n) n (leaf e) i (i + 1) := by
  refine reaches_request fun granted ↦ reaches_advance ?_
  split
  · exact reaches_pure e (Nat.le_refl _) hi
  · exact reaches_failWith trivial hi

section Expressions

variable {expr : Parse Expr}

theorem parsePrimary_progress (htoks : TokenArray toks n) (hexpr : Progress n expr (lo + 1)) :
    Progress n (parsePrimary toks expr) lo := by
  intro i hlo hi
  refine reaches_cur hi ?_
  have hnext (hne : toks i ≠ .eof) : i + 1 ≤ n := htoks.succ_le hi hne
  generalize toks i = t at hnext
  cases t
  case num => exact leaf_reaches (hnext (by rintro ⟨⟩))
  case str => exact leaf_reaches (hnext (by rintro ⟨⟩))
  case kwTrue => exact leaf_reaches (hnext (by rintro ⟨⟩))
  case kwFalse => exact leaf_reaches (hnext (by rintro ⟨⟩))
  case ident => exact leaf_reaches (hnext (by rintro ⟨⟩))
  case lp =>
    have hi' : i + 1 ≤ n := hnext (by rintro ⟨⟩)
    refine reaches_advance (reaches_attempt (hexpr _ (Nat.succ_le_succ hlo) hi') ?_ ?_)
    · intro e j hj hjn
      exact reaches_bind (expect_reaches htoks (by rintro ⟨⟩) hjn) fun _ k hk hkn ↦
        reaches_pure e (by omega) hkn
    · intro j hjn
      exact reaches_bind (expect_reaches htoks (by rintro ⟨⟩) hjn) fun _ k _ hkn ↦ hkn
  all_goals exact reaches_failWith trivial hi

theorem argLoop_reaches (htoks : TokenArray toks n) (hexpr : Progress n expr lo) (hlo : lo ≤ i)
    (hi : i ≤ n) (hfuel : n < i + fuel) (allocated : Bool) (args : List Expr) :
    Reaches (InBounds n) n (argLoop toks expr fuel allocated args) i i := by
  induction fuel generalizing i allocated args with
  | zero => omega
  | succ fuel ih =>
    refine reaches_bind (hexpr i hlo hi) fun arg j hj hjn ↦ ?_
    split
    · exact reaches_failWith trivial hjn
    · rename_i hroom
      have hwrite (b : Bool) : Reaches (InBounds n) n (do
          report (.put .callArgs (!b) args.length)
          let more ← accept toks .comma
          if more then argLoop toks expr fuel b (args ++ [arg]) else pure (args ++ [arg])) j i := by
        refine reaches_put (Nat.lt_of_not_le hroom) ?_
        refine reaches_accept htoks (by rintro ⟨⟩) hjn (fun hjn' ↦ ?_) ?_
        · exact (ih (by omega) hjn' (by omega) b _).mono (by omega)
        · exact reaches_pure _ (by omega) hjn
      cases allocated with
      | true => exact hwrite true
      | false => exact reaches_request hwrite

theorem parseArgs_reaches (htoks : TokenArray toks n) (hexpr : Progress n expr lo) (hlo : lo ≤ i)
    (hi : i ≤ n) (hfuel : n < i + fuel) :
    Reaches (InBounds n) n (parseArgs toks expr fuel) i i := by
  refine reaches_cur hi ?_
  split
  · exact reaches_pure [] (Nat.le_refl i) hi
  · exact argLoop_reaches htoks hexpr hlo hi hfuel false []

theorem postfixLoop_reaches (htoks : TokenArray toks n) (hexpr : Progress n expr lo) (hlo : lo ≤ i)
    (hi : i ≤ n) (hfuel : n < i + fuel) (e : Expr) :
    Reaches (InBounds n) n (postfixLoop toks expr fuel e) i i := by
  induction fuel generalizing i e with
  | zero => omega
  | succ fuel ih =>
    refine reaches_cur hi ?_
    split
    · rename_i hcur
      have hi' : i + 1 ≤ n := htoks.succ_le hi (by rw [hcur]; rintro ⟨⟩)
      refine reaches_advance (reaches_newAst hi' ?_)
      cases e.varName with
      | none => exact reaches_failWith trivial hi'
      | some f =>
        refine reaches_bind (parseArgs_reaches htoks hexpr (by omega) hi' (by omega)) ?_
        intro args k hk hkn
        refine reaches_bind (expect_reaches htoks (by rintro ⟨⟩) hkn) fun _ m hm hmn ↦ ?_
        exact (ih (by omega) hmn (by omega) _).mono (by omega)
    · split
      · rename_i hcur
        have hi' : i + 1 ≤ n := htoks.succ_le hi (by
          rintro heof
          rw [heof] at hcur
          rcases hcur with ⟨⟨⟩⟩ | ⟨⟨⟩⟩)
        refine reaches_advance ?_
        cases e.varName with
        | none => exact reaches_failWith trivial hi'
        | some x =>
          exact reaches_newAst hi' ((ih (by omega) hi' (by omega) _).mono (Nat.le_succ i))
      · exact reaches_pure e (Nat.le_refl i) hi

theorem parsePostfix_progress (htoks : TokenArray toks n) (hfuel : n < lo + fuel)
    (hexpr : Progress n expr (lo + 1)) : Progress n (parsePostfix toks expr fuel) lo := by
  intro i hlo hi
  refine reaches_bind (parsePrimary_progress htoks hexpr i hlo hi) fun e j hj hjn ↦ ?_
  exact (postfixLoop_reaches htoks hexpr (by omega) hjn (by omega) e).mono hj

theorem unaryNode_reaches {t : Tok} {a : Expr} (hi : i ≤ n) :
    Reaches (InBounds n) n (unaryNode t a) i i := by
  unfold unaryNode
  split_ifs
  · exact reaches_pure _ (Nat.le_refl i) hi
  · exact reaches_pure _ (Nat.le_refl i) hi
  · exact reaches_pure _ (Nat.le_refl i) hi
  · cases a.varName with
    | none => exact reaches_failWith trivial hi
    | some x => exact reaches_pure _ (Nat.le_refl i) hi

theorem parseUnary_progress (htoks : TokenArray toks n) {loops : ℕ} (hloops : n < lo + loops)
    (hfuel : n < lo + fuel) (hexpr : Progress n expr (lo + 1)) :
    Progress n (parseUnary toks expr loops fuel) lo := by
  induction fuel generalizing lo with
  | zero =>
    intro i hlo hi
    omega
  | succ fuel ih =>
    intro i hlo hi
    refine reaches_cur hi ?_
    split
    · rename_i hop
      have hi' : i + 1 ≤ n := htoks.succ_le hi (by
        intro heof
        rw [heof] at hop
        exact absurd hop (by decide))
      have hoperand : Progress n (parseUnary toks expr loops fuel) (lo + 1) :=
        ih (by omega) (by omega) (hexpr.mono (Nat.le_succ _))
      refine reaches_advance (reaches_newAst hi' ?_)
      refine reaches_bind (hoperand _ (Nat.succ_le_succ hlo) hi') fun a k hk hkn ↦ ?_
      exact (unaryNode_reaches hkn).mono (by omega)
    · exact parsePostfix_progress htoks hloops hexpr i hlo hi

theorem binopLoop_reaches (htoks : TokenArray toks n) {higher : Parse Expr} {ops : Operators}
    (hops : ops.lookup .eof = none) (hhigher : Progress n higher lo) (hlo : lo ≤ i) (hi : i ≤ n)
    (hfuel : n < i + fuel) (lhs : Expr) :
    Reaches (InBounds n) n (binopLoop toks higher ops fuel lhs) i i := by
  induction fuel generalizing i lhs with
  | zero => omega
  | succ fuel ih =>
    refine reaches_cur hi ?_
    cases hop : ops.lookup (toks i) with
    | none => exact reaches_pure lhs (Nat.le_refl i) hi
    | some node =>
      have hi' : i + 1 ≤ n := htoks.succ_le hi (by
        intro heof
        rw [heof, hops] at hop
        cases hop)
      refine reaches_advance (reaches_bind (hhigher _ (by omega) hi') fun rhs j hj hjn ↦ ?_)
      exact reaches_newAst hjn ((ih (by omega) hjn (by omega) _).mono (by omega))

theorem parseBinop_progress (htoks : TokenArray toks n) {higher : Parse Expr} {ops : Operators}
    (hops : ops.lookup .eof = none) (hfuel : n < lo + fuel) (hhigher : Progress n higher lo) :
    Progress n (parseBinop toks higher ops fuel) lo := by
  intro i hlo hi
  refine reaches_bind (hhigher i hlo hi) fun lhs j hj hjn ↦ ?_
  exact (binopLoop_reaches htoks hops hhigher (by omega) hjn (by omega) lhs).mono hj

theorem parseOror_progress (htoks : TokenArray toks n) (hfuel : n < lo + fuel)
    (hexpr : Progress n expr (lo + 1)) : Progress n (parseOror toks expr fuel) lo := by
  have hmultiplicative : Progress n (parseMultiplicative toks expr fuel) lo :=
    parseBinop_progress htoks rfl hfuel (parseUnary_progress htoks hfuel hfuel hexpr)
  have hrelational : Progress n (parseRelational toks expr fuel) lo :=
    parseBinop_progress htoks rfl hfuel <| parseBinop_progress htoks rfl hfuel <|
      parseBinop_progress htoks rfl hfuel hmultiplicative
  have hbor : Progress n (parseBor toks expr fuel) lo :=
    parseBinop_progress htoks rfl hfuel <| parseBinop_progress htoks rfl hfuel <|
      parseBinop_progress htoks rfl hfuel <| parseBinop_progress htoks rfl hfuel hrelational
  exact parseBinop_progress htoks rfl hfuel <| parseBinop_progress htoks rfl hfuel hbor

theorem parseAssign_progress (htoks : TokenArray toks n) {loops : ℕ} (hloops : n < lo + loops)
    (hfuel : n < lo + fuel) (hexpr : Progress n expr (lo + 1)) :
    Progress n (parseAssign toks expr loops fuel) lo := by
  induction fuel generalizing lo with
  | zero =>
    intro i hlo hi
    omega
  | succ fuel ih =>
    intro i hlo hi
    refine reaches_bind (parseOror_progress htoks hloops hexpr i hlo hi) fun lhs j hj hjn ↦ ?_
    refine reaches_cur hjn ?_
    cases hop : assignOps.lookup (toks j) with
    | none => exact reaches_pure lhs hj hjn
    | some op =>
      have hj' : j + 1 ≤ n := htoks.succ_le hjn (by
        intro heof
        rw [heof] at hop
        cases hop)
      have hassign : Progress n (parseAssign toks expr loops fuel) (lo + 1) :=
        ih (by omega) (by omega) (hexpr.mono (Nat.le_succ _))
      cases lhs.varName with
      | none => exact reaches_failWith trivial hjn
      | some x =>
        refine reaches_advance (reaches_bind (hassign _ (by omega) hj') fun rhs k hk hkn ↦ ?_)
        exact reaches_newAst hkn (reaches_pure _ (by omega) hkn)

end Expressions

theorem parseExpr_progress (htoks : TokenArray toks n) (hfuel : n < lo + fuel) :
    Progress n (parseExpr toks fuel) lo := by
  induction fuel generalizing lo with
  | zero =>
    intro i hlo hi
    omega
  | succ fuel ih => exact parseAssign_progress htoks hfuel hfuel (ih (by omega))

/-! ### Statements -/

section Statements

variable {expr : Parse Expr} {stmt : Parse Stmt}

/-- There are not more statements in front of `i` than tokens. -/
theorem blockLoop_reaches (htoks : TokenArray toks n) (hstmt : Progress n stmt lo) (hlo : lo ≤ i)
    (hi : i ≤ n) (hfuel : n < i + fuel) {body : List Stmt} (hbody : body.length ≤ i) :
    Reaches (InBounds n) n (blockLoop toks stmt fuel body) i i := by
  induction fuel generalizing i body with
  | zero => omega
  | succ fuel ih =>
    refine reaches_cur hi ?_
    split
    · rename_i hcur
      have hi' : i + 1 ≤ n := htoks.succ_le hi (by rw [hcur]; rintro ⟨⟩)
      exact reaches_advance (reaches_pure body (Nat.le_succ i) hi')
    · split
      · exact reaches_failWith trivial hi
      · refine reaches_bind (hstmt i hlo hi) fun s j hj hjn ↦ ?_
        have hroom : body.length < NodeArray.block.capacity := by
          have hsize : n < 512 := htoks.size
          change body.length < 1024
          omega
        have hgrown : (body ++ [s]).length = body.length + 1 := List.length_append
        refine reaches_checkedArray hjn (reaches_put hroom ?_)
        exact (ih (by omega) hjn (by omega) (by omega)).mono (by omega)

theorem parseBlock_progress (htoks : TokenArray toks n) (hfuel : n < lo + fuel)
    (hstmt : Progress n stmt (lo + 1)) : Progress n (parseBlock toks stmt fuel) lo := by
  intro i hlo hi
  have hnone : ([] : List Stmt).length = 0 := rfl
  refine reaches_newAst hi ?_
  refine reaches_bind (expect_reaches htoks (by rintro ⟨⟩) hi) fun _ k hk hkn ↦ ?_
  exact (blockLoop_reaches htoks hstmt (by omega) hkn (by omega) (by omega)).mono hk

theorem defaultLeaf_reaches {v : U64} (hi : i + 1 ≤ n) :
    Reaches (InBounds n) n (defaultLeaf v) i (i + 1) := by
  refine reaches_request fun granted ↦ ?_
  cases granted with
  | true => exact reaches_advance (reaches_pure _ (Nat.le_refl _) hi)
  | false =>
    have hin : InBounds n (.perr .astMemory) := trivial
    exact (does_report hin i).ensures (reaches_advance (reaches_pure _ (Nat.le_refl _) hi))

theorem optionalDefault_reaches (htoks : TokenArray toks n) (hi : i ≤ n) :
    Reaches (InBounds n) n (optionalDefault toks) i i := by
  refine reaches_accept htoks (by rintro ⟨⟩) hi (fun hi' ↦ ?_) (reaches_pure _ (Nat.le_refl i) hi)
  refine reaches_cur hi' ?_
  have hnext (hne : toks (i + 1) ≠ .eof) : i + 1 + 1 ≤ n := htoks.succ_le hi' hne
  generalize toks (i + 1) = t at hnext
  cases t
  case num => exact (defaultLeaf_reaches (hnext (by rintro ⟨⟩))).mono (by omega)
  case kwTrue => exact (defaultLeaf_reaches (hnext (by rintro ⟨⟩))).mono (by omega)
  case kwFalse => exact (defaultLeaf_reaches (hnext (by rintro ⟨⟩))).mono (by omega)
  all_goals exact reaches_failWith trivial hi'

theorem paramLoop_reaches (htoks : TokenArray toks n) (hi : i ≤ n) (hfuel : n < i + fuel)
    {ps : List Param} (hps : ps.length < nocMaxArgs) :
    Reaches (InBounds n) n (paramLoop toks fuel ps) i i := by
  induction fuel generalizing i ps with
  | zero => omega
  | succ fuel ih =>
    refine reaches_cur hi ?_
    have hnext (hne : toks i ≠ .eof) : i + 1 ≤ n := htoks.succ_le hi hne
    generalize toks i = t at hnext
    cases t
    case type type =>
      have hi' : i + 1 ≤ n := hnext (by rintro ⟨⟩)
      refine reaches_advance (reaches_cur hi' ?_)
      have hbehind (hne : toks (i + 1) ≠ .eof) : i + 1 + 1 ≤ n := htoks.succ_le hi' hne
      generalize toks (i + 1) = c at hbehind
      cases c
      case ident name =>
        have hi'' : i + 1 + 1 ≤ n := hbehind (by rintro ⟨⟩)
        refine reaches_newAst hi' (reaches_advance ?_)
        refine reaches_bind (optionalDefault_reaches htoks hi'') fun default j hj hjn ↦ ?_
        refine reaches_checkedArray hjn (reaches_put hps ?_)
        split
        · rename_i hroom
          have hgrown (p : Param) : (ps ++ [p]).length = ps.length + 1 := List.length_append
          refine reaches_accept htoks (by rintro ⟨⟩) hjn (fun hjn' ↦ ?_) ?_
          · exact (ih hjn' (by omega) ((hgrown _).trans_lt hroom)).mono (by omega)
          · exact reaches_pure _ (by omega) hjn
        · exact reaches_failWith trivial hjn
      all_goals exact reaches_failWith trivial hi'
    all_goals exact reaches_failWith trivial hi

theorem parseParams_progress (htoks : TokenArray toks n) (hfuel : n < lo + fuel) :
    Progress n (parseParams toks fuel) lo := by
  intro i hlo hi
  refine reaches_bind (expect_reaches htoks (by rintro ⟨⟩) hi) fun _ j hj hjn ↦ ?_
  refine reaches_accept htoks (by rintro ⟨⟩) hjn ?_ ?_
  · exact fun hjn' ↦ reaches_pure _ (hj.trans (Nat.le_succ j)) hjn'
  · refine reaches_bind (paramLoop_reaches htoks hjn (by omega) (by decide)) fun ps k hk hkn ↦ ?_
    refine reaches_bind (expect_reaches htoks (by rintro ⟨⟩) hkn) fun _ m hm hmn ↦ ?_
    exact reaches_pure ps (by omega) hmn

theorem optionalInit_reaches (htoks : TokenArray toks n) (hexpr : Progress n expr lo) (hlo : lo ≤ i)
    (hi : i ≤ n) : Reaches (InBounds n) n (optionalInit toks expr) i i := by
  refine reaches_accept htoks (by rintro ⟨⟩) hi (fun hi' ↦ ?_) (reaches_pure none (Nat.le_refl i) hi)
  refine reaches_bind (hexpr _ (by omega) hi') fun e j hj hjn ↦ ?_
  exact reaches_pure (some e) (by omega) hjn

theorem optionalExpr_reaches (hexpr : Progress n expr lo) {stop : Tok} (hlo : lo ≤ i) (hi : i ≤ n) :
    Reaches (InBounds n) n (optionalExpr toks expr stop) i i := by
  refine reaches_cur hi ?_
  split
  · exact reaches_pure none (Nat.le_refl i) hi
  · refine reaches_bind (hexpr i hlo hi) fun e j hj hjn ↦ ?_
    exact reaches_pure (some e) (by omega) hjn

theorem parseDeclaration_reaches (htoks : TokenArray toks n) (hexpr : Progress n expr (i + 1))
    (hstmt : Progress n stmt (i + 1)) (hi : i + 1 ≤ n) (hfuel : n < i + fuel) (type : NType) :
    Reaches (InBounds n) n (parseDeclaration toks expr stmt fuel type) i (i + 1) := by
  refine reaches_advance (reaches_cur hi ?_)
  have hbehind (hne : toks (i + 1) ≠ .eof) : i + 1 + 1 ≤ n := htoks.succ_le hi hne
  generalize toks (i + 1) = c at hbehind
  cases c
  case ident name =>
    have hi' : i + 1 + 1 ≤ n := hbehind (by rintro ⟨⟩)
    refine reaches_advance (reaches_cur hi' ?_)
    split
    · refine reaches_newAst hi' ?_
      have hparams : Progress n (parseParams toks fuel) i := parseParams_progress htoks hfuel
      refine reaches_bind (hparams _ (by omega) hi') fun params j hj hjn ↦ ?_
      have hblock := parseBlock_progress htoks hfuel hstmt
      refine reaches_bind (hblock j (by omega) hjn) fun body k hk hkn ↦ ?_
      exact reaches_pure _ (by omega) hkn
    · refine reaches_newAst hi' ?_
      refine reaches_bind (optionalInit_reaches htoks hexpr (Nat.le_succ _) hi') ?_
      intro init j hj hjn
      refine reaches_bind (semiOk_reaches htoks hjn) fun _ k hk hkn ↦ ?_
      exact reaches_pure _ (by omega) hkn
  all_goals exact reaches_failWith trivial hi

theorem parseIf_reaches (htoks : TokenArray toks n) (hexpr : Progress n expr (i + 1))
    (hstmt : Progress n stmt (i + 1)) (hi : i + 1 ≤ n) :
    Reaches (InBounds n) n (parseIf toks expr stmt) i (i + 1) := by
  refine reaches_advance (reaches_newAst hi ?_)
  refine reaches_bind (expect_reaches htoks (by rintro ⟨⟩) hi) fun _ j hj hjn ↦ ?_
  refine reaches_bind (hexpr j (by omega) hjn) fun c k hk hkn ↦ ?_
  refine reaches_bind (expect_reaches htoks (by rintro ⟨⟩) hkn) fun _ m hm hmn ↦ ?_
  refine reaches_bind (hstmt m (by omega) hmn) fun t p hp hpn ↦ ?_
  refine reaches_accept htoks (by rintro ⟨⟩) hpn (fun hpn' ↦ ?_) (reaches_pure _ (by omega) hpn)
  refine reaches_bind (hstmt _ (by omega) hpn') fun e q hq hqn ↦ ?_
  exact reaches_pure _ (by omega) hqn

theorem parseWhile_reaches (htoks : TokenArray toks n) (hexpr : Progress n expr (i + 1))
    (hstmt : Progress n stmt (i + 1)) (hi : i + 1 ≤ n) :
    Reaches (InBounds n) n (parseWhile toks expr stmt) i (i + 1) := by
  refine reaches_advance (reaches_newAst hi ?_)
  refine reaches_bind (expect_reaches htoks (by rintro ⟨⟩) hi) fun _ j hj hjn ↦ ?_
  refine reaches_bind (hexpr j (by omega) hjn) fun c k hk hkn ↦ ?_
  refine reaches_bind (expect_reaches htoks (by rintro ⟨⟩) hkn) fun _ m hm hmn ↦ ?_
  refine reaches_bind (hstmt m (by omega) hmn) fun body p hp hpn ↦ ?_
  exact reaches_pure _ (by omega) hpn

theorem parseForInit_reaches (htoks : TokenArray toks n) (hexpr : Progress n expr lo) (hlo : lo ≤ i)
    (hi : i ≤ n) : Reaches (InBounds n) n (parseForInit toks expr) i i := by
  refine reaches_cur hi ?_
  have hnext (hne : toks i ≠ .eof) : i + 1 ≤ n := htoks.succ_le hi hne
  generalize toks i = t at hnext
  cases t
  case semi =>
    have hi' : i + 1 ≤ n := hnext (by rintro ⟨⟩)
    exact reaches_advance (reaches_pure _ (Nat.le_succ i) hi')
  case type type =>
    have hi' : i + 1 ≤ n := hnext (by rintro ⟨⟩)
    refine reaches_advance (reaches_cur hi' ?_)
    have hbehind (hne : toks (i + 1) ≠ .eof) : i + 1 + 1 ≤ n := htoks.succ_le hi' hne
    generalize toks (i + 1) = c at hbehind
    cases c
    case ident name =>
      have hi'' : i + 1 + 1 ≤ n := hbehind (by rintro ⟨⟩)
      refine reaches_newAst hi' (reaches_advance ?_)
      refine reaches_bind (optionalInit_reaches htoks hexpr (by omega) hi'') ?_
      intro init j hj hjn
      refine reaches_bind (expect_reaches htoks (by rintro ⟨⟩) hjn) fun _ k hk hkn ↦ ?_
      exact reaches_pure _ (by omega) hkn
    all_goals exact reaches_failWith trivial hi'
  all_goals
    refine reaches_bind (hexpr i hlo hi) fun e j hj hjn ↦ ?_
    refine reaches_bind (expect_reaches htoks (by rintro ⟨⟩) hjn) fun _ k hk hkn ↦ ?_
    exact reaches_pure _ (by omega) hkn

theorem parseFor_reaches (htoks : TokenArray toks n) (hexpr : Progress n expr (i + 1))
    (hstmt : Progress n stmt (i + 1)) (hi : i + 1 ≤ n) :
    Reaches (InBounds n) n (parseFor toks expr stmt) i (i + 1) := by
  refine reaches_advance (reaches_newAst hi ?_)
  refine reaches_bind (expect_reaches htoks (by rintro ⟨⟩) hi) fun _ j hj hjn ↦ ?_
  refine reaches_bind (parseForInit_reaches htoks hexpr (by omega) hjn) fun init k hk hkn ↦ ?_
  refine reaches_bind (optionalExpr_reaches hexpr (by omega) hkn) fun c m hm hmn ↦ ?_
  refine reaches_bind (expect_reaches htoks (by rintro ⟨⟩) hmn) fun _ p hp hpn ↦ ?_
  refine reaches_bind (optionalExpr_reaches hexpr (by omega) hpn) fun post q hq hqn ↦ ?_
  refine reaches_bind (expect_reaches htoks (by rintro ⟨⟩) hqn) fun _ r hr hrn ↦ ?_
  refine reaches_bind (hstmt r (by omega) hrn) fun body s hs hsn ↦ ?_
  exact reaches_pure _ (by omega) hsn

theorem parseReturn_reaches (htoks : TokenArray toks n) (hexpr : Progress n expr (i + 1))
    (hi : i + 1 ≤ n) : Reaches (InBounds n) n (parseReturn toks expr) i (i + 1) := by
  refine reaches_advance (reaches_newAst hi ?_)
  refine reaches_bind (optionalExpr_reaches hexpr (Nat.le_refl _) hi) fun e j hj hjn ↦ ?_
  refine reaches_bind (semiOk_reaches htoks hjn) fun _ k hk hkn ↦ ?_
  exact reaches_pure _ (by omega) hkn

theorem parseStmtExpr_reaches (htoks : TokenArray toks n) (hexpr : Progress n expr i) (hi : i ≤ n) :
    Reaches (InBounds n) n (parseStmtExpr toks expr) i (i + 1) := by
  refine reaches_newAst hi ?_
  refine reaches_bind (hexpr i (Nat.le_refl i) hi) fun e j hj hjn ↦ ?_
  refine reaches_bind (semiOk_reaches htoks hjn) fun _ k hk hkn ↦ ?_
  exact reaches_pure _ (by omega) hkn

end Statements

theorem parseStmt_progress (htoks : TokenArray toks n) (hfuel : n < lo + fuel) :
    Progress n (parseStmt toks fuel) lo := by
  induction fuel generalizing lo with
  | zero =>
    intro i hlo hi
    omega
  | succ fuel ih =>
    intro i hlo hi
    have hexpr : Progress n (parseExpr toks (fuel + 1)) i := parseExpr_progress htoks (by omega)
    have hinner : Progress n (parseExpr toks (fuel + 1)) (i + 1) := hexpr.mono (Nat.le_succ i)
    have hstmt : Progress n (parseStmt toks fuel) (i + 1) := ih (by omega)
    refine reaches_cur hi ?_
    generalize parseExpr toks (fuel + 1) = expr at hexpr hinner
    generalize parseStmt toks fuel = stmt at hstmt
    have hstmtExpr := parseStmtExpr_reaches htoks hexpr hi
    have hnext (hne : toks i ≠ .eof) : i + 1 ≤ n := htoks.succ_le hi hne
    generalize toks i = t at hnext
    cases t
    case type type =>
      exact parseDeclaration_reaches htoks hinner hstmt (hnext (by rintro ⟨⟩)) (by omega) type
    case lb =>
      have hblock : Progress n (parseBlock toks stmt (fuel + 1)) i :=
        parseBlock_progress htoks (by omega) hstmt
      refine reaches_bind (hblock i (Nat.le_refl i) hi) fun body j hj hjn ↦ ?_
      exact reaches_pure _ hj hjn
    case kwIf => exact parseIf_reaches htoks hinner hstmt (hnext (by rintro ⟨⟩))
    case kwWhile => exact parseWhile_reaches htoks hinner hstmt (hnext (by rintro ⟨⟩))
    case kwFor => exact parseFor_reaches htoks hinner hstmt (hnext (by rintro ⟨⟩))
    case kwReturn => exact parseReturn_reaches htoks hinner (hnext (by rintro ⟨⟩))
    case eof => exact reaches_failWith trivial hi
    all_goals exact hstmtExpr

theorem stmtLoop_reaches (htoks : TokenArray toks n) {stmt : Parse Stmt} (hstmt : Progress n stmt lo)
    (hlo : lo ≤ i) (hi : i ≤ n) (hfuel : n < i + fuel) {stmts : List Stmt}
    (hstmts : stmts.length ≤ i) :
    Reaches (InBounds n) n (stmtLoop toks stmt fuel stmts) i i := by
  induction fuel generalizing i stmts with
  | zero => omega
  | succ fuel ih =>
    refine reaches_cur hi ?_
    split
    · exact reaches_pure stmts (Nat.le_refl i) hi
    · refine reaches_bind (hstmt i hlo hi) fun s j hj hjn ↦ ?_
      have hroom : stmts.length < NodeArray.stmts.capacity := by
        have hsize : n < 512 := htoks.size
        change stmts.length < 1024
        omega
      have hgrown : (stmts ++ [s]).length = stmts.length + 1 := List.length_append
      refine reaches_put hroom ?_
      split
      · exact reaches_failWith trivial hjn
      · exact (ih (by omega) hjn (by omega) (by omega)).mono (by omega)

theorem nocParse_reaches (htoks : TokenArray toks n) (hfuel : n < fuel) :
    Reaches (InBounds n) n (nocParse toks fuel) 0 0 := by
  have hstmt : Progress n (parseStmt toks fuel) 0 := parseStmt_progress htoks (by omega)
  refine reaches_request fun granted ↦ ?_
  split
  · exact stmtLoop_reaches htoks hstmt (Nat.le_refl 0) (Nat.zero_le n) (by omega) (Nat.le_refl 0)
  · exact reaches_failWith trivial (Nat.zero_le n)

/-- The parser ends, inspects no token behind the `EOF` and writes no array behind its end. A statement
that it has parsed was a token long at least, and the `EOF` is not one of its tokens. -/
theorem nocParse_staysInBounds (htoks : TokenArray toks n) (a : Arena) :
    (∀ fuel, n < fuel → (runParser toks fuel a).value.1 ≠ .stuck ∧
      ∀ e, .did e ∈ (runParser toks fuel a).acts → InBounds n e) ∧
    ∀ fuel i s j, i ≤ n → n < i + fuel →
      ((parseStmt toks fuel i).run (Arena.answer ParseRequest.size) a).value = (.ok s, j) →
      i < j ∧ j ≤ n := by
  constructor
  · intro fuel hfuel
    obtain ⟨hvalue, hacts⟩ := Dialog.Always.run (nocParse_reaches htoks hfuel)
      (Arena.answer ParseRequest.size) a
    exact ⟨hvalue.not_stuck, hacts⟩
  · intro fuel i s j hi hfuel hrun
    have hstmt := parseStmt_progress htoks hfuel i (Nat.le_refl i) hi
    have hvalue := (Dialog.Always.run hstmt (Arena.answer ParseRequest.size) a).1
    rw [hrun] at hvalue
    exact hvalue

/-- `if (x) { f(1, y); }` -/
def guardedCallTokens : List Tok :=
  [.kwIf, .lp, .ident (cstr "x"), .rp, .lb, .ident (cstr "f"), .lp, .num 1, .comma,
    .ident (cstr "y"), .rp, .semi, .rb]

/-- Its run in an arena that has no room any more for the statements of the block. -/
theorem nocParse_staysInBounds_guardedCall :
    ((runParser (guardedCallTokens.getD · .eof) 14 ⟨0x100000#64, 0#64, 83232#64⟩).value.1 ≠ .stuck ∧
      ∀ e, .did e ∈ (runParser (guardedCallTokens.getD · .eof) 14
        ⟨0x100000#64, 0#64, 83232#64⟩).acts → InBounds 13 e) ∧
      .asked (.array .block) false ∈ (runParser (guardedCallTokens.getD · .eof) 14
        ⟨0x100000#64, 0#64, 83232#64⟩).acts := by
  have htoks : TokenArray (guardedCallTokens.getD · .eof) 13 := ⟨by decide, rfl, by decide⟩
  exact ⟨(nocParse_staysInBounds htoks _).1 14 (by decide), by decide +kernel⟩

end NoOsKernel.Noc
