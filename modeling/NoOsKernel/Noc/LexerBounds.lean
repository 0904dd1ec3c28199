import NoOsKernel.Noc.LexerLaws

/-!
# Where the lexer leaves its source

`lex_escape` consumes the character behind a backslash even if that is the NUL at the end of the
source, and the loop over the string goes on behind it. The lexer stays inside of its source, and
ends, if and only if the source does not end in such a backslash. What a source ends in is told by
going through it byte after byte, with the next byte in view (`Mode`).
-/

set_option autoImplicit false
set_option relaxedAutoImplicit false

namespace NoOsKernel.Noc

open Lib Kern Scan

/-- The characters that end nothing and begin neither a comment nor a string. -/
def isPlain (c : Byte) : Bool :=
  isSpace c ∨ isIdentChar c ∨ (cstr "()\x7b\x7d;,+-*%=<>!&|^~").contains c

/-- What a byte of a source belongs to: the tokens, a comment (with its first and its last byte apart),
the text of a string with `k` bytes so far, or what is behind its backslash. In a source that is
rejected nothing more is read. -/
inductive Mode where
  | code
  | line
  | opening
  | block
  | closing
  | str (k : ℕ)
  | escape (k : ℕ)
  | rejected
  deriving DecidableEq

namespace Mode

/-- A string of `k` bytes with one more. -/
def grown (k : ℕ) : Mode := if k + 1 < strSize then .str (k + 1) else .rejected

/-- The mode behind the byte `c`, with the byte `next` behind it. -/
def step (m : Mode) (c next : Byte) : Mode :=
  match m with
  | .code =>
    if c = chr '/' then
      if next = chr '/' then .line else if next = chr '*' then .opening else .code
    else if c = chr '"' then .str 0
    else if isPlain c then .code
    else .rejected
  | .line => if c = chr '\n' then .code else .line
  | .opening => .block
  | .block => if c = chr '*' ∧ next = chr '/' then .closing else .block
  | .closing => .code
  | .str k => if c = chr '"' then .code else if c = chr '\\' then .escape k else grown k
  | .escape k => grown k
  | .rejected => .rejected

/-- The mode at the end of a text. -/
def atEnd : Mode → List Byte → Mode
  | m, [] => m
  | m, c :: bs => atEnd (m.step c (bs.headD 0)) bs

/-- The text ends behind the backslash of a string whose buffer is not full with the next byte. -/
def EndsInEscape (m : Mode) (bs : List Byte) : Prop := ∃ k, m.atEnd bs = .escape k ∧ k + 1 < strSize

theorem endsInEscape_cons {m : Mode} {c : Byte} {bs : List Byte} :
    m.EndsInEscape (c :: bs) ↔ (m.step c (bs.headD 0)).EndsInEscape bs := Iff.rfl

theorem not_endsInEscape_nil {m : Mode} (hm : ∀ k, m ≠ .escape k) : ¬ m.EndsInEscape [] :=
  fun ⟨k, hend, _⟩ ↦ hm k hend

theorem not_endsInEscape_rejected (bs : List Byte) : ¬ rejected.EndsInEscape bs := by
  induction bs with
  | nil => exact not_endsInEscape_nil (by rintro k ⟨⟩)
  | cons c bs ih => exact ih

/-! ### The text between two tokens and the text of one -/

theorem code_plain {c : Byte} (hc : isPlain c = true) (next : Byte) : code.step c next = code := by
  have hslash : c ≠ chr '/' := by
    rintro rfl
    exact absurd hc (by decide)
  have hquote : c ≠ chr '"' := by
    rintro rfl
    exact absurd hc (by decide)
  rw [step, if_neg hslash, if_neg hquote, if_pos hc]

theorem endsInEscape_plain {xs : List Byte} (hxs : ∀ c ∈ xs, isPlain c = true) (bs : List Byte) :
    code.EndsInEscape (xs ++ bs) ↔ code.EndsInEscape bs := by
  induction xs with
  | nil => exact Iff.rfl
  | cons c xs ih =>
    obtain ⟨hc, hxs⟩ := List.forall_mem_cons.mp hxs
    rw [List.cons_append, endsInEscape_cons, code_plain hc]
    exact ih hxs

theorem endsInEscape_dropWhile {test : Byte → Bool} (htest : ∀ c, test c = true → isPlain c = true)
    (bs : List Byte) : code.EndsInEscape (bs.dropWhile test) ↔ code.EndsInEscape bs := by
  have hplain : ∀ c ∈ bs.takeWhile test, isPlain c = true := fun c hc ↦
    htest c (List.mem_takeWhile_imp hc)
  have hsplit := endsInEscape_plain hplain (bs.dropWhile test)
  rw [List.takeWhile_append_dropWhile] at hsplit
  exact hsplit.symm

theorem endsInEscape_slash {next : Byte} {bs : List Byte} (hline : next ≠ chr '/')
    (hblock : next ≠ chr '*') (hnext : bs.headD 0 = next) :
    code.EndsInEscape (chr '/' :: bs) ↔ code.EndsInEscape bs := by
  rw [endsInEscape_cons, hnext, step, if_pos rfl, if_neg hline, if_neg hblock]

/-! ### Comments -/

theorem endsInEscape_line {bs : List Byte} (hne : ∀ c ∈ bs, c ≠ 0) :
    code.EndsInEscape (bs.dropWhile inLine) ↔ line.EndsInEscape bs := by
  induction bs with
  | nil => exact iff_of_false (not_endsInEscape_nil (by rintro k ⟨⟩)) (not_endsInEscape_nil (by rintro k ⟨⟩))
  | cons c bs ih =>
    obtain ⟨hc, hne⟩ := List.forall_mem_cons.mp hne
    rw [List.dropWhile_cons, endsInEscape_cons, step]
    by_cases hnewline : c = chr '\n'
    · have hstop : ¬ inLine c = true := fun hgo ↦
        (of_decide_eq_true hgo).2 hnewline
      rw [if_neg hstop, if_pos hnewline, endsInEscape_cons, hnewline,
        code_plain (by decide)]
    · have hgo : inLine c = true := decide_eq_true ⟨hc, hnewline⟩
      rw [if_pos hgo, if_neg hnewline]
      exact ih hne

theorem endsInEscape_block (bs : List Byte) :
    code.EndsInEscape ((atBlockEnd bs).drop 2) ↔ block.EndsInEscape bs := by
  induction bs with
  | nil => exact iff_of_false (not_endsInEscape_nil (by rintro k ⟨⟩)) (not_endsInEscape_nil (by rintro k ⟨⟩))
  | cons c bs ih =>
    rw [atBlockEnd, endsInEscape_cons, step]
    by_cases hend : c = chr '*' ∧ bs.headD 0 = chr '/'
    · rw [if_pos hend, if_pos hend]
      cases bs with
      | nil => exact absurd hend.2 (by decide)
      | cons d bs => exact Iff.rfl
    · rw [if_neg hend, if_neg hend]
      exact ih

end Mode

open Mode

/-! ### Tokens that need no memory -/

theorem isPlain_space {c : Byte} (hc : isSpace c = true) : isPlain c = true :=
  decide_eq_true (Or.inl hc)

theorem isPlain_ident {c : Byte} (hc : isIdentChar c = true) : isPlain c = true :=
  decide_eq_true (Or.inr (Or.inl hc))

theorem operators_text : ∀ e ∈ operators, e.2 ≠ .eof ∧ e.1 ≠ [] ∧
    ((∀ c ∈ e.1, isPlain c = true) ∨ e.1 = cstr "/" ∨ e.1 = cstr "/=") := by
  have htext : ∀ e ∈ operators, e.2 ≠ .eof ∧ e.1 ≠ [] ∧
      (e.1.all isPlain = true ∨ e.1 = cstr "/" ∨ e.1 = cstr "/=") := by decide
  simpa only [List.all_eq_true] using htext

/-- The text goes on behind an operator as it would behind any other. -/
theorem endsInEscape_operator {e : Name × Tok} {bs : List Byte} (he : e ∈ operators)
    (hline : ¬ Opens (chr '/') (e.1 ++ bs)) (hblock : ¬ Opens (chr '*') (e.1 ++ bs)) :
    code.EndsInEscape (e.1 ++ bs) ↔ code.EndsInEscape bs := by
  obtain ⟨-, -, hplain | hslash | hslash⟩ := operators_text e he
  · exact endsInEscape_plain hplain bs
  · rw [hslash] at hline hblock ⊢
    exact endsInEscape_slash (fun h ↦ hline ⟨rfl, h⟩) (fun h ↦ hblock ⟨rfl, h⟩) rfl
  · rw [hslash]
    have hnext : (chr '=' :: bs).headD 0 = chr '=' := rfl
    have hequals : ∀ c ∈ [chr '='], isPlain c = true := by decide
    exact (endsInEscape_slash (by decide) (by decide) hnext).trans (endsInEscape_plain hequals bs)

/-- A text that begins with no operator and with nothing else is rejected. -/
theorem not_endsInEscape_unexpected {c : Byte} {bs : List Byte} (hspace : isSpace c = false)
    (hident : isIdentChar c = false) (hquote : c ≠ chr '"')
    (hnone : operators.find? (·.1 <+: c :: bs) = none) : ¬ code.EndsInEscape (c :: bs) := by
  have hno : ∀ e ∈ operators, e.1 ≠ [c] := by
    intro e he hop
    refine absurd (decide_eq_true ?_) (List.find?_eq_none.mp hnone e he)
    rw [hop]
    exact List.cons_prefix_cons.mpr ⟨rfl, List.nil_prefix⟩
  have hslash : c ≠ chr '/' := by
    rintro rfl
    exact hno (cstr "/", .slash) (by decide) rfl
  have hplain : isPlain c = false := by
    have hsingle : ∀ d ∈ cstr "()\x7b\x7d;,+-*%=<>!&|^~", ∃ e ∈ operators, e.1 = [d] := by
      decide +kernel
    refine decide_eq_false ?_
    rintro (hc | hc | hc)
    · exact absurd hc (by rw [hspace]; decide)
    · exact absurd hc (by rw [hident]; decide)
    · obtain ⟨e, he, hop⟩ := hsingle c (List.contains_iff_mem.mp hc)
      exact hno e he hop
  rw [endsInEscape_cons, step, if_neg hslash, if_neg hquote, hplain]
  exact not_endsInEscape_rejected bs

variable {mem : ℕ → Byte} {N i fuel : ℕ} {bs : List Byte} {c : Byte}

/-- A token that is taken without asking for memory. -/
def TakesToken (mem : ℕ → Byte) (N fuel : ℕ) (c : Byte) (bs : List Byte) : Prop :=
  ∃ t rest, Takes mem N (lexToken mem fuel c) (c :: bs) t rest ∧ t ≠ .eof ∧
    rest.length < (c :: bs).length ∧ (code.EndsInEscape (c :: bs) ↔ code.EndsInEscape rest)

theorem takesToken_number (hc : isDigit c = true) (hfuel : (c :: bs).length < fuel) :
    TakesToken mem N fuel c bs := by
  have hdigit : ∀ hex, isDigitOf hex c = true := fun hex ↦ decide_eq_true (Or.inl hc)
  have htoken : lexToken mem fuel c = lexNumber mem fuel c := if_pos hc
  have hplain : ∀ hex c, isDigitOf hex c = true → isPlain c = true := fun hex c h ↦
    isPlain_ident (isIdentChar_digit h)
  unfold TakesToken
  rw [htoken]
  by_cases hhex : StartsHex (c :: bs)
  · obtain ⟨hzero, hx⟩ := hhex
    cases bs with
    | nil =>
      have hx : (0 : Byte) = chr 'x' ∨ (0 : Byte) = chr 'X' := hx
      exact absurd hx (by decide)
    | cons x bs =>
      obtain rfl : c = chr '0' := hzero
      have hfuel' : bs.length < fuel := by
        rw [List.length_cons, List.length_cons] at hfuel
        omega
      have hprefix : ∀ b ∈ [chr '0', x], isPlain b = true := by
        refine List.forall_mem_cons.mpr ⟨by decide, List.forall_mem_singleton.mpr ?_⟩
        rcases hx with hx | hx
        · rw [show x = chr 'x' from hx]
          decide
        · rw [show x = chr 'X' from hx]
          decide
      refine ⟨_, _, lexNumber_takes_hex hx hfuel', Tok.noConfusion, ?_, ?_⟩
      · have hle := (bs.dropWhile_sublist (isDigitOf true)).length_le
        rw [List.length_cons, List.length_cons]
        omega
      · exact (endsInEscape_plain hprefix bs).trans (endsInEscape_dropWhile (hplain true) bs).symm
  · refine ⟨_, _, lexNumber_takes_dec hhex hfuel, Tok.noConfusion, ?_,
      (endsInEscape_dropWhile (hplain false) (c :: bs)).symm⟩
    rw [List.dropWhile_cons, if_pos (hdigit false), List.length_cons]
    exact Nat.lt_succ_of_le (bs.dropWhile_sublist _).length_le

theorem lexToken_operator (hdigit : isDigit c = false) (hident : isIdentStart c = false)
    (hquote : c ≠ chr '"') : lexToken mem fuel c = lexOperator mem c operators := by
  rw [lexToken, hdigit, hident, if_neg (by decide), if_neg (by decide), if_neg hquote]

theorem takesToken_operator (hdigit : isDigit c = false) (hident : isIdentStart c = false)
    (hquote : c ≠ chr '"') (hline : ¬ Opens (chr '/') (c :: bs))
    (hblock : ¬ Opens (chr '*') (c :: bs)) {e : Name × Tok}
    (hfind : operators.find? (·.1 <+: c :: bs) = some e) : TakesToken mem N fuel c bs := by
  have he := List.mem_of_find?_eq_some hfind
  obtain ⟨hne, hop, -⟩ := operators_text e he
  have hprefix : decide (e.1 <+: c :: bs) = true :=
    List.find?_some (p := fun e : Name × Tok ↦ decide (e.1 <+: c :: bs)) hfind
  obtain ⟨rest, hrest⟩ := of_decide_eq_true hprefix
  unfold TakesToken
  rw [lexToken_operator hdigit hident hquote, ← hrest]
  rw [← hrest] at hfind hline hblock
  refine ⟨e.2, rest, lexOperator_takes operators_ne_zero hfind, hne, ?_,
    endsInEscape_operator he hline hblock⟩
  have hpos := List.length_pos_of_ne_nil hop
  rw [List.length_append]
  omega

/-! ### Strings -/

theorem TextByte.endsInEscape {e : Byte} {rest : List Byte} (h : TextByte bs e rest) (k : ℕ) :
    (Mode.str k).EndsInEscape bs ↔ (grown k).EndsInEscape rest := by
  cases h with
  | plain hquote hslash => rw [endsInEscape_cons, step, if_neg hquote, if_neg hslash]
  | escape d bs =>
    rw [endsInEscape_cons, step, if_neg (by decide), if_pos rfl, endsInEscape_cons, step]

/-- The loop over a string stands at a quote behind which nothing goes wrong, or at the end. -/
def StrEnds (mem : ℕ → Byte) (N len j : ℕ) : Prop :=
  ∃ rest, At mem N j rest ∧ rest.length ≤ len ∧
    (rest = [] ∨ ∃ bs, rest = chr '"' :: bs ∧ ¬ code.EndsInEscape bs)

theorem StrEnds.mono {len len' j : ℕ} (h : StrEnds mem N len j) (hle : len ≤ len') :
    StrEnds mem N len' j := by
  obtain ⟨rest, hrest, hlen, hends⟩ := h
  exact ⟨rest, hrest, hlen.trans hle, hends⟩

/-- The loop over the text of a string that does not end behind a backslash. -/
theorem strLoop_ensures {null : Bool} {buf : Name} (h : At mem N i bs) (hfuel : bs.length < fuel)
    (hsafe : ¬ (Mode.str buf.length).EndsInEscape bs) :
    Ensures (InSource N) (strLoop mem null fuel buf) i
      (Post (fun _ j ↦ StrEnds mem N bs.length j) fun _ ↦ True) := by
  induction fuel generalizing i bs buf with
  | zero => exact absurd hfuel (Nat.not_lt_zero _)
  | succ fuel ih =>
    rcases text_cases bs with rfl | ⟨rest, rfl⟩ | rfl | ⟨e, rest, hbyte⟩
    · exact (strLoop_end h).ensures_self ⟨[], h, le_rfl, Or.inl rfl⟩
    · rw [endsInEscape_cons, step, if_pos rfl] at hsafe
      exact (strLoop_quote h).ensures_self ⟨_, h, le_rfl, Or.inr ⟨rest, rfl, hsafe⟩⟩
    · have hfull : strSize ≤ buf.length + 1 := by
        by_contra hroom
        exact hsafe ⟨_, rfl, Nat.lt_of_not_le hroom⟩
      refine (strLoop_escape_end null fuel buf h).ensures ?_
      rw [strMore, if_pos hfull]
      exact ⟨trivial, trivial⟩
    · obtain ⟨j, hj, hcomes⟩ := hbyte.strLoop null fuel buf h
      have hlen := hbyte.length_lt
      rw [hbyte.endsInEscape, grown] at hsafe
      refine hcomes.ensures ?_
      unfold strMore
      split_ifs with hfull
      · exact ⟨trivial, trivial⟩
      · rw [if_pos (Nat.lt_of_not_le hfull)] at hsafe
        have hgrown : (buf ++ [e]).length = buf.length + 1 := List.length_append
        rw [← hgrown] at hsafe
        exact (ih hj (by omega) hsafe).mono (fun _ k hk ↦ hk.mono hlen.le) fun _ hk ↦ hk

theorem lexStr_ensures (h : At mem N i (chr '"' :: bs)) (hfuel : bs.length < fuel)
    (hsafe : ¬ code.EndsInEscape (chr '"' :: bs)) :
    Ensures (InSource N) (lexStr mem fuel) i (Post
      (fun t j ↦ t ≠ .eof ∧ ∃ rest, At mem N j rest ∧ rest.length ≤ bs.length ∧
        ¬ code.EndsInEscape rest) fun _ ↦ True) := by
  refine (does_advance _ 1 i).ensures ?_
  intro granted
  refine ensures_bind (strLoop_ensures h.tail hfuel hsafe) ?_
  rintro s j ⟨rest, hrest, hlen, hends⟩
  obtain ⟨bs', hskip, hle, hsafe'⟩ : ∃ bs', Takes mem N (skipQuote mem) rest () bs' ∧
      bs'.length ≤ rest.length ∧ ¬ code.EndsInEscape bs' := by
    rcases hends with rfl | ⟨bs', rfl, hsafe'⟩
    · exact ⟨[], skipQuote_end, le_rfl, not_endsInEscape_nil (by rintro k ⟨⟩)⟩
    · exact ⟨bs', skipQuote_takes bs', Nat.le_succ _, hsafe'⟩
  obtain ⟨k, hdoes, hk⟩ := hskip j hrest
  refine hdoes.ensures ⟨trivial, Tok.noConfusion, bs', hk, hle.trans hlen, hsafe'⟩

/-! ### All runs -/

theorem keywordType_ne_eof (s : Name) : keywordType s ≠ .eof := by
  have htable : ∀ e ∈ keywords, e.2 ≠ Tok.eof := by decide
  unfold keywordType
  split
  · rename_i e t hfind
    exact htable (e, t) (List.mem_of_find?_eq_some hfind)
  · exact Tok.noConfusion

/-- How the token that begins with `c` is taken. -/
theorem lexToken_cases (mem : ℕ → Byte) (N : ℕ) (hfuel : (c :: bs).length < fuel)
    (hspace : isSpace c = false) (hline : ¬ Opens (chr '/') (c :: bs))
    (hblock : ¬ Opens (chr '*') (c :: bs)) :
    TakesToken mem N fuel c bs ∨
      isIdentChar c = true ∧ lexToken mem fuel c = lexIdent mem fuel ∨
      c = chr '"' ∧ lexToken mem fuel c = lexStr mem fuel ∨
      ¬ code.EndsInEscape (c :: bs) ∧ ∀ i, At mem N i (c :: bs) →
        Comes (InSource N) (lexToken mem fuel c) i (lexUnexpected c) i := by
  cases hdigit : isDigit c with
  | true => exact Or.inl (takesToken_number hdigit hfuel)
  | false =>
    have hnodigit : ¬ isDigit c = true := by rw [hdigit]; decide
    cases hident : isIdentStart c with
    | true =>
      refine Or.inr (Or.inl ⟨decide_eq_true (Or.inl hident), ?_⟩)
      rw [lexToken, if_neg hnodigit, if_pos hident]
    | false =>
      have hnoident : ¬ isIdentStart c = true := by rw [hident]; decide
      by_cases hquote : c = chr '"'
      · refine Or.inr (Or.inr (Or.inl ⟨hquote, ?_⟩))
        rw [lexToken, if_neg hnodigit, if_neg hnoident, if_pos hquote]
      · have hchar : isIdentChar c = false := by
          rw [isIdentChar, hident, hdigit]
          decide
        cases hfind : operators.find? (·.1 <+: c :: bs) with
        | some e =>
          exact Or.inl (takesToken_operator hdigit hident hquote hline hblock hfind)
        | none =>
          refine Or.inr (Or.inr (Or.inr
            ⟨not_endsInEscape_unexpected hspace hchar hquote hfind, fun i h ↦ ?_⟩))
          rw [lexToken_operator hdigit hident hquote]
          exact lexOperator_none operators_ne_zero hfind h

theorem lexToken_ensures (h : At mem N i (c :: bs)) (hfuel : (c :: bs).length < fuel)
    (hspace : isSpace c = false) (hline : ¬ Opens (chr '/') (c :: bs))
    (hblock : ¬ Opens (chr '*') (c :: bs)) (hsafe : ¬ code.EndsInEscape (c :: bs)) :
    Ensures (InSource N) (lexToken mem fuel c) i (Post
      (fun t j ↦ t ≠ .eof ∧ ∃ rest, At mem N j rest ∧ rest.length ≤ bs.length ∧
        ¬ code.EndsInEscape rest) fun _ ↦ True) := by
  rcases lexToken_cases mem N hfuel hspace hline hblock with
    ⟨t, rest, htakes, ht, hlen, hiff⟩ | ⟨hident, htoken⟩ | ⟨rfl, htoken⟩ | ⟨-, hunexpected⟩
  · obtain ⟨j, hdoes, hj⟩ := htakes i h
    exact hdoes.ensures_self ⟨ht, rest, hj, Nat.le_of_lt_succ hlen, fun hcut ↦ hsafe (hiff.mpr hcut)⟩
  · rw [htoken]
    refine (lexIdent_ensures h hfuel).mono ?_ fun _ hj ↦ hj
    rintro t j ⟨rfl, hj⟩
    refine ⟨keywordType_ne_eof _, _, hj, ?_, fun hcut ↦ hsafe ?_⟩
    · rw [List.dropWhile_cons, if_pos hident]
      exact (bs.dropWhile_sublist _).length_le
    · exact (endsInEscape_dropWhile (fun _ ↦ isPlain_ident) _).mp hcut
  · rw [htoken]
    exact lexStr_ensures h (Nat.lt_of_succ_lt hfuel) hsafe
  · refine (hunexpected i h).ensures ?_
    intro granted
    cases granted with
    | true => exact ⟨trivial, trivial⟩
    | false => exact ⟨trivial, trivial⟩

variable {maxtoks : ℕ} {toks : List Tok}

/-- How the loop goes on: behind a comment, or at the head of a token or the end. The end of the
source is where it was. -/
theorem lexLoop_cases (maxtoks : ℕ) (toks : List Tok) (h : At mem N i bs) (hfuel : bs.length < fuel) :
    (∃ j rest, At mem N j rest ∧ rest.length < bs.length ∧
      (code.EndsInEscape bs ↔ code.EndsInEscape rest) ∧
      Comes (InSource N) (lexLoop mem maxtoks (fuel + 1) toks) i (lexLoop mem maxtoks fuel toks) j) ∨
    ∃ j rest, At mem N j rest ∧ rest.length ≤ bs.length ∧
      (code.EndsInEscape bs ↔ code.EndsInEscape rest) ∧
      (∀ c ∈ rest.head?, isSpace c = false) ∧ ¬ Opens (chr '/') rest ∧ ¬ Opens (chr '*') rest ∧
      Comes (InSource N) (lexLoop mem maxtoks (fuel + 1) toks) i (lexHead mem maxtoks fuel toks) j := by
  have hle := (bs.dropWhile_sublist isSpace).length_le
  have hspace := endsInEscape_dropWhile (fun _ ↦ isPlain_space) bs
  by_cases hline : Opens (chr '/') (bs.dropWhile isSpace)
  · obtain ⟨j, hj, hcomes⟩ := lexLoop_line maxtoks toks h hfuel hline
    obtain ⟨rest, hrest⟩ := hline.exists_cons (by decide)
    rw [hrest] at hj hspace hle
    have hdrop : (chr '/' :: chr '/' :: rest).dropWhile inLine = rest.dropWhile inLine := rfl
    rw [hdrop] at hj
    have hne : ∀ c ∈ rest, c ≠ 0 := fun c hc ↦ by
      refine h.ne_zero c ((bs.dropWhile_sublist isSpace).mem ?_)
      rw [hrest]
      exact List.mem_cons_of_mem _ (List.mem_cons_of_mem _ hc)
    have hshort := (rest.dropWhile_sublist inLine).length_le
    rw [List.length_cons, List.length_cons] at hle
    exact Or.inl ⟨j, _, hj, by omega, hspace.symm.trans (endsInEscape_line hne).symm, hcomes⟩
  · by_cases hblock : Opens (chr '*') (bs.dropWhile isSpace)
    · obtain ⟨rest, hrest⟩ := hblock.exists_cons (by decide)
      rw [hrest] at hline hblock hspace hle
      obtain ⟨j, hj, hcomes⟩ := lexLoop_block maxtoks toks h hfuel hrest hline hblock
      have hshort : ((atBlockEnd rest).drop 2).length ≤ rest.length :=
        ((atBlockEnd rest).drop_sublist 2).length_le.trans (length_atBlockEnd rest)
      rw [List.length_cons, List.length_cons] at hle
      exact Or.inl ⟨j, _, hj, by omega, hspace.symm.trans (endsInEscape_block rest).symm, hcomes⟩
    · obtain ⟨j, hj, hcomes⟩ := lexLoop_head maxtoks toks h hfuel hline hblock
      refine Or.inr ⟨j, _, hj, hle, hspace.symm, fun c hc ↦ ?_, hline, hblock, hcomes⟩
      have hstop := List.head?_dropWhile_not isSpace bs
      rwa [Option.mem_def.mp hc] at hstop

/-- What the lexer accepts: tokens with the only end-of-input behind them. -/
def TokenList (maxtoks : ℕ) (toks : List Tok) : Prop :=
  ∃ body, toks = body ++ [.eof] ∧ .eof ∉ body ∧ body.length < maxtoks

/-- A source that does not end in an escape is read up to its NUL at most. -/
theorem lexLoop_ensures (h : At mem N i bs) (hfuel : bs.length + 1 < fuel)
    (hsafe : ¬ code.EndsInEscape bs) (htoks : .eof ∉ toks) :
    Ensures (InSource N) (lexLoop mem maxtoks fuel toks) i
      (Post (fun ts _ ↦ TokenList maxtoks ts) fun _ ↦ True) := by
  induction fuel generalizing i bs toks with
  | zero => exact absurd hfuel (Nat.not_lt_zero _)
  | succ fuel ih =>
    have hfuel' : bs.length < fuel := Nat.lt_of_succ_lt_succ hfuel
    rcases lexLoop_cases maxtoks toks h hfuel' with
      ⟨j, rest, hj, hlen, hiff, hcomes⟩ | ⟨j, rest, hj, hlen, hiff, hhead, hline, hblock, hcomes⟩
    · exact hcomes.ensures (ih hj (by omega) (fun hcut ↦ hsafe (hiff.mpr hcut)) htoks)
    · refine hcomes.ensures ?_
      by_cases hroom : maxtoks ≤ toks.length
      · rw [lexHead, if_pos hroom]
        exact ⟨trivial, trivial⟩
      · have hroom := Nat.lt_of_not_le hroom
        cases rest with
        | nil => exact (lexHead_end hj hroom).ensures_self ⟨toks, rfl, htoks, hroom⟩
        | cons c rest =>
          have hspace := hhead c rfl
          have htoken := lexToken_ensures hj (hlen.trans_lt hfuel') hspace hline hblock
            (fun hcut ↦ hsafe (hiff.mpr hcut))
          refine (lexHead_token hj hroom).ensures (ensures_bind htoken ?_)
          rintro t k ⟨ht, rest', hk, hlen', hsafe'⟩
          refine ih hk ?_ hsafe' ?_
          · rw [List.length_cons] at hlen
            omega
          · exact fun hmem ↦ (List.mem_append.mp hmem).elim htoks
              fun hmem ↦ ht (List.mem_singleton.mp hmem).symm

/-! ### Behind the end -/

/-- The loop over a string at whose end the source ends in an escape: the string ends before that, or
the byte behind the NUL is read. -/
theorem strLoop_reports (null : Bool) (buf : Name) (h : At mem N i bs) (hfuel : bs.length < fuel)
    (hcut : (Mode.str buf.length).EndsInEscape bs) :
    (∃ s j rest, Does (InSource N) (strLoop mem null fuel buf) i s j ∧
      At mem N j (chr '"' :: rest) ∧ rest.length < bs.length ∧ code.EndsInEscape rest) ∨
    .src (N + 1) ∈ (strLoop mem null fuel buf i).reports := by
  induction fuel generalizing i bs buf with
  | zero => exact absurd hfuel (Nat.not_lt_zero _)
  | succ fuel ih =>
    rcases text_cases bs with rfl | ⟨rest, rfl⟩ | rfl | ⟨e, rest, hbyte⟩
    · exact absurd hcut (not_endsInEscape_nil (by rintro k ⟨⟩))
    · rw [endsInEscape_cons, step, if_pos rfl] at hcut
      exact Or.inl ⟨buf, i, rest, strLoop_quote h, h, Nat.lt_succ_self _, hcut⟩
    · obtain ⟨k, hend, hroom⟩ := hcut
      obtain rfl : buf.length = k := by cases hend; rfl
      obtain ⟨fuel, rfl⟩ : ∃ fuel', fuel = fuel' + 1 := ⟨fuel - 1, by
        rw [List.length_singleton] at hfuel
        omega⟩
      refine Or.inr ((strLoop_escape_end null (fuel + 1) buf h).reports ?_)
      rw [strMore, if_neg (Nat.not_le_of_lt hroom)]
      exact List.mem_cons_self
    · obtain ⟨j, hj, hcomes⟩ := hbyte.strLoop null fuel buf h
      have hlen := hbyte.length_lt
      rw [hbyte.endsInEscape, grown] at hcut
      by_cases hroom : buf.length + 1 < strSize
      · rw [if_pos hroom] at hcut
        have hgrown : (buf ++ [e]).length = buf.length + 1 := List.length_append
        rw [← hgrown] at hcut
        rw [strMore, if_neg (Nat.not_le_of_lt hroom)] at hcomes
        rcases ih _ hj (by omega) hcut with ⟨s, k, rest', hdoes, hk, hlen', hcut'⟩ | hreports
        · exact Or.inl ⟨s, k, rest', hcomes.does hdoes, hk, hlen'.trans hlen, hcut'⟩
        · exact Or.inr (hcomes.reports hreports)
      · rw [if_neg hroom] at hcut
        exact absurd hcut (not_endsInEscape_rejected rest)

theorem lexStr_reports (h : At mem N i (chr '"' :: bs)) (hfuel : bs.length < fuel)
    (hcut : code.EndsInEscape (chr '"' :: bs)) :
    (∃ t j n rest, Reads LexRequest.size (lexStr mem fuel) i t j n ∧ At mem N j rest ∧
      rest.length ≤ bs.length ∧ code.EndsInEscape rest) ∨
    .src (N + 1) ∈ (lexStr mem fuel i).reports := by
  have hfirst := does_advance (ρ := LexRequest) (InSource N) 1 i
  rcases strLoop_reports false [] h.tail hfuel hcut with
    ⟨s, j, rest, hdoes, hj, hlen, hcut'⟩ | hreports
  · obtain ⟨k, hskip, hk⟩ := skipQuote_takes rest j hj
    have hput : Does (InSource N) (do
        report (.put false s.length)
        pure (Tok.str s) : Lex Tok) k (.str s) k := (does_report trivial k).bind (does_pure _ _ k)
    refine Or.inl ⟨.str s, k, strSize + 0, rest, hfirst.reads_bind ?_, hk, hlen.le, hcut'⟩
    exact reads_bind (reads_request _ (i + 1))
      (hdoes.bind (hskip.bind hput)).reads
  · refine Or.inr (hfirst.comes.reports ?_)
    have hrequest : Reads LexRequest.size (request .string : Lex Bool) (i + 1) true (i + 1) strSize :=
      reads_request _ _
    exact hrequest.reports (reports_bind hreports)

theorem lexToken_reports (h : At mem N i (c :: bs)) (hfuel : (c :: bs).length < fuel)
    (hspace : isSpace c = false) (hline : ¬ Opens (chr '/') (c :: bs))
    (hblock : ¬ Opens (chr '*') (c :: bs)) (hcut : code.EndsInEscape (c :: bs)) :
    (∃ t j n rest, Reads LexRequest.size (lexToken mem fuel c) i t j n ∧ At mem N j rest ∧
      rest.length ≤ bs.length ∧ code.EndsInEscape rest) ∨
    .src (N + 1) ∈ (lexToken mem fuel c i).reports := by
  rcases lexToken_cases mem N hfuel hspace hline hblock with
    ⟨t, rest, htakes, -, hlen, hiff⟩ | ⟨hident, htoken⟩ | ⟨rfl, htoken⟩ | ⟨hsafe, -⟩
  · obtain ⟨j, hdoes, hj⟩ := htakes i h
    exact Or.inl ⟨t, j, 0, rest, hdoes.reads, hj, Nat.le_of_lt_succ hlen, hiff.mp hcut⟩
  · rw [htoken]
    obtain ⟨j, hj, hreads⟩ := lexIdent_reads LexRequest.size h hfuel
    refine Or.inl ⟨_, j, _, _, hreads, hj, ?_, ?_⟩
    · rw [List.dropWhile_cons, if_pos hident]
      exact (bs.dropWhile_sublist _).length_le
    · exact (endsInEscape_dropWhile (fun _ ↦ isPlain_ident) _).mpr hcut
  · rw [htoken]
    exact lexStr_reports h (Nat.lt_of_succ_lt hfuel) hcut
  · exact absurd hcut hsafe

/-- When nothing is refused and there is room for all tokens, a source that ends in an escape is read
behind its NUL. -/
theorem lexLoop_reports (h : At mem N i bs) (hfuel : bs.length + 1 < fuel)
    (hcut : code.EndsInEscape bs) (hroom : toks.length + bs.length < maxtoks) :
    .src (N + 1) ∈ (lexLoop mem maxtoks fuel toks i).reports := by
  induction fuel generalizing i bs toks with
  | zero => exact absurd hfuel (Nat.not_lt_zero _)
  | succ fuel ih =>
    have hfuel' : bs.length < fuel := Nat.lt_of_succ_lt_succ hfuel
    rcases lexLoop_cases maxtoks toks h hfuel' with
      ⟨j, rest, hj, hlen, hiff, hcomes⟩ | ⟨j, rest, hj, hlen, hiff, hhead, hline, hblock, hcomes⟩
    · exact hcomes.reports (ih hj (by omega) (hiff.mp hcut) (by omega))
    · refine hcomes.reports ?_
      cases rest with
      | nil => exact absurd (hiff.mp hcut) (not_endsInEscape_nil (by rintro k ⟨⟩))
      | cons c rest =>
        refine (lexHead_token hj (by omega)).reports ?_
        rcases lexToken_reports hj (hlen.trans_lt hfuel') (hhead c rfl) hline hblock
          (hiff.mp hcut) with ⟨t, k, n, rest', hreads, hk, hlen', hcut'⟩ | hreports
        · rw [List.length_cons] at hlen
          have hgrown : (toks ++ [t]).length = toks.length + 1 := List.length_append
          exact hreads.reports (ih hk (by omega) hcut' (by omega))
        · exact reports_bind hreports

/-- However much memory and however much room for tokens there is, `noc_lex` ends and inspects no byte
behind the NUL of the source `bs`. -/
def StaysInSource (bs : List Byte) : Prop :=
  ∀ mem maxtoks fuel a, StringAt mem 0 bs → bs.length + 1 < fuel →
    (runLexer mem maxtoks fuel a).value.1 ≠ .stuck ∧
      ∀ i, .did (.src i) ∈ (runLexer mem maxtoks fuel a).acts → i ≤ bs.length

theorem nocLex_ensures (maxtoks : ℕ) (htext : StringAt mem 0 bs) (hfuel : bs.length + 1 < fuel)
    (hsafe : ¬ code.EndsInEscape bs) :
    Ensures (InSource bs.length) (nocLex mem maxtoks fuel) 0
      (Post (fun ts _ ↦ TokenList maxtoks ts) fun _ ↦ True) :=
  lexLoop_ensures ⟨htext, Nat.zero_add _⟩ hfuel hsafe List.not_mem_nil

theorem nocLex_reports (htext : StringAt mem 0 bs) (hfuel : bs.length + 1 < fuel)
    (hcut : code.EndsInEscape bs) (hroom : bs.length < maxtoks) :
    .src (bs.length + 1) ∈ (nocLex mem maxtoks fuel 0).reports := by
  refine lexLoop_reports ⟨htext, Nat.zero_add _⟩ hfuel hcut ?_
  rwa [List.length_nil, Nat.zero_add]

/-- The lexer stays inside of a source and ends if and only if the source does not end behind a
backslash in a string with room for another byte. -/
theorem nocLex_staysInSource_iff (hne : ∀ c ∈ bs, c ≠ 0) :
    StaysInSource bs ↔ ¬ code.EndsInEscape bs := by
  constructor
  · intro hstays hcut
    have htext : StringAt (memOf bs) 0 bs := stringAt_memOf [] hne
    have hfuel := Nat.lt_succ_self (bs.length + 1)
    have hreports := nocLex_reports htext hfuel hcut (Nat.lt_succ_self _)
    have harena : (⟨1#64, 0#64, BitVec.allOnes 64⟩ : Arena).Boundless := ⟨rfl, rfl, rfl⟩
    have hmeets := meets_of_boundless harena LexRequest.size
      (nocLex (memOf bs) (bs.length + 1) (bs.length + 2) 0).demands
    have hle := (hstays (memOf bs) (bs.length + 1) (bs.length + 2) _ htext hfuel).2 _
      (Dialog.did_of_reports hmeets hreports)
    exact Nat.not_succ_le_self _ hle
  · intro hsafe mem maxtoks fuel a htext hfuel
    obtain ⟨hvalue, hacts⟩ := Dialog.Always.run (nocLex_ensures maxtoks htext hfuel hsafe)
      (Arena.answer LexRequest.size) a
    exact ⟨hvalue.not_stuck, fun i hi ↦ hacts (.src i) hi⟩

/-- A line that ends behind a closed string. -/
theorem nocLex_staysInSource_closed : StaysInSource (cstr "\"\\n\"") := by
  refine (nocLex_staysInSource_iff (by decide)).mpr ?_
  rintro ⟨k, hend, -⟩
  cases hend

/-- A quote and a backslash, with the tokens and the arena of a line. -/
theorem nocLex_leaves_quoted_backslash : ¬ StaysInSource (cstr "\"\\") := by
  intro hstays
  have htext : StringAt (memOf (cstr "\"\\")) 0 (cstr "\"\\") := stringAt_memOf [] (by decide)
  have hread : Act.did (LexEvent.src 3) ∈ (runLexer (memOf (cstr "\"\\")) nocMaxToks 8
      ⟨0x100000#64, 12288#64, 0x100000#64⟩).acts := by decide +kernel
  exact absurd ((hstays _ _ _ _ htext (by decide)).2 3 hread) (by decide)

end NoOsKernel.Noc
