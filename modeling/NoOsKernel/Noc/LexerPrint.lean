import NoOsKernel.Noc.LexerLaws

/-!
# Lexing inverts printing

Tokens are printed one after another with gaps between them (`Printed`): spaces and comments. The
lexer gives the tokens back. What stands directly behind a `/` must be a space there: with a comment
behind it the operator begins a line comment itself.
-/

set_option autoImplicit false
set_option relaxedAutoImplicit false

namespace NoOsKernel.Noc

open Lib Kern Scan

/-! ### Numerals -/

/-- The base of a numeral. -/
def radix (hex : Bool) : ℕ := if hex then 16 else 10

theorem isDigitOf_digit (hex upper : Bool) {d : ℕ} (hd : d < radix hex) :
    isDigitOf hex (digit upper d) = true := by
  cases hex with
  | false =>
    have hten : d < 10 := hd
    cases upper <;> interval_cases d <;> decide
  | true =>
    have hsixteen : d < 16 := hd
    cases upper <;> interval_cases d <;> decide

theorem digitValue_digit (upper : Bool) {d : ℕ} (hd : d < 16) :
    digitValue (digit upper d) = BitVec.ofNat 64 d := by
  cases upper <;> interval_cases d <;> decide

theorem radix_le (hex : Bool) : radix hex ≤ 16 := by
  cases hex <;> decide

theorem one_lt_radix (hex : Bool) : 1 < radix hex := by
  cases hex <;> decide

/-- A numeral is a digit, or a numeral with a digit behind it. -/
theorem digitText_cases (hex upper : Bool) (v : ℕ) :
    v < radix hex ∧ digitText (radix hex) upper v = [digit upper v] ∨
    v / radix hex < v ∧ digitText (radix hex) upper v =
      digitText (radix hex) upper (v / radix hex) ++ [digit upper (v % radix hex)] := by
  have hone := one_lt_radix hex
  by_cases hlt : v < radix hex
  · refine Or.inl ⟨hlt, ?_⟩
    rw [digitText, Nat.toDigits_of_lt_base hlt, digit_eq upper (hlt.trans_le (radix_le hex))]
    rfl
  · have hle := Nat.le_of_not_lt hlt
    have hmod := Nat.mod_lt v (Nat.zero_lt_of_lt hone)
    refine Or.inr ⟨Nat.div_lt_self (by omega) hone, ?_⟩
    rw [digitText, digitText, Nat.toDigits_of_base_le hone hle, List.map_append,
      digit_eq upper (hmod.trans_le (radix_le hex))]
    rfl

theorem isDigitOf_digitText (hex upper : Bool) (v : ℕ) :
    ∀ c ∈ digitText (radix hex) upper v, isDigitOf hex c = true := by
  induction v using Nat.strong_induction_on with
  | _ v ih =>
    rcases digitText_cases hex upper v with ⟨hlt, htext⟩ | ⟨hdiv, htext⟩
    · rw [htext]
      exact List.forall_mem_singleton.mpr (isDigitOf_digit hex upper hlt)
    · have hmod := Nat.mod_lt v (Nat.zero_lt_of_lt (one_lt_radix hex))
      rw [htext]
      exact List.forall_mem_append.mpr ⟨ih _ hdiv,
        List.forall_mem_singleton.mpr (isDigitOf_digit hex upper hmod)⟩

theorem digitText_ne_nil (hex upper : Bool) (v : ℕ) : digitText (radix hex) upper v ≠ [] := by
  rcases digitText_cases hex upper v with ⟨-, htext⟩ | ⟨-, htext⟩
  · rw [htext]
    exact List.cons_ne_nil _ _
  · rw [htext]
    exact List.append_ne_nil_of_right_ne_nil _ (List.cons_ne_nil _ _)

theorem foldl_digitText (hex upper : Bool) (v : ℕ) :
    (digitText (radix hex) upper v).foldl (withDigit hex) 0 = BitVec.ofNat 64 v := by
  induction v using Nat.strong_induction_on with
  | _ v ih =>
    have hradix : (if hex then 16 else 10 : U64) = BitVec.ofNat 64 (radix hex) := by
      cases hex <;> rfl
    rcases digitText_cases hex upper v with ⟨hlt, htext⟩ | ⟨hdiv, htext⟩
    · rw [htext, List.foldl_cons, List.foldl_nil, withDigit, digitValue_digit upper (hlt.trans_le (radix_le hex))]
      simp
    · have hmod := Nat.mod_lt v (Nat.zero_lt_of_lt (one_lt_radix hex))
      rw [htext, List.foldl_append, ih _ hdiv, List.foldl_cons, List.foldl_nil, withDigit,
        digitValue_digit upper (hmod.trans_le (radix_le hex)), hradix, ← BitVec.ofNat_mul, ← BitVec.ofNat_add,
        Nat.div_add_mod']

/-! ### The text of a token -/

/-- A byte of a string as it is printed. -/
def printByte (c : Byte) : List Byte :=
  if c = chr '\\' then [chr '\\', chr '\\']
  else if c = chr '"' then [chr '\\', chr '"']
  else if c = chr '\n' then [chr '\\', chr 'n']
  else if c = chr '\t' then [chr '\\', chr 't']
  else if c = chr '\r' then [chr '\\', chr 'r']
  else [c]

/-- The texts of a token. -/
inductive Spells : Tok → List Byte → Prop
  | operator {op : Name} {t : Tok} (hop : (op, t) ∈ operators) : Spells t op
  | keyword {kw : Name} {t : Tok} (hkw : (kw, t) ∈ keywords) : Spells t kw
  | ident {x : Name} (hstart : isIdentStart (x.headD 0) = true)
    (hchars : ∀ c ∈ x, isIdentChar c = true) (hword : ∀ e ∈ keywords, e.1 ≠ x) : Spells (.ident x) x
  | decimal (v : U64) : Spells (.num v) (digitText 10 false v.toNat)
  | hex (upper : Bool) (v : U64) :
    Spells (.num v) (chr '0' :: chr 'x' :: digitText 16 upper v.toNat)
  | str {s : Name} (hlen : s.length < strSize) (hnul : ∀ c ∈ s, c ≠ 0) :
    Spells (.str s) (chr '"' :: (s.flatMap printByte ++ [chr '"']))

/-- What the lexer takes from the arena for a request. -/
def LexRequest.taken (r : LexRequest) : ℕ := roundUp r.size

/-- What the lexer takes from the arena for a token with this text. -/
def textMemory (text : List Byte) : ℕ :=
  if isIdentStart (text.headD 0) then LexRequest.taken (.identifier text.length)
  else if text.headD 0 = chr '"' then LexRequest.taken .string
  else 0

/-- What may stand behind a token. -/
def isDelimiter (c : Byte) : Bool := c = 0 ∨ isSpace c ∨ c = chr '/'

theorem isIdentChar_delimiter {c : Byte} (hc : isDelimiter c = true) : isIdentChar c = false := by
  rcases of_decide_eq_true hc with rfl | hspace | rfl
  · rfl
  · rcases of_decide_eq_true hspace with rfl | rfl | rfl | rfl <;> rfl
  · rfl

theorem isDigit_of_start {c : Byte} (hc : isIdentStart c = true) : isDigit c = false := by
  refine decide_eq_false ?_
  rintro ⟨-, hnine⟩
  rcases of_decide_eq_true hc with ⟨hlow, -⟩ | ⟨hlow, -⟩ | rfl
  · exact absurd (BitVec.le_trans hlow hnine) (by decide)
  · exact absurd (BitVec.le_trans hlow hnine) (by decide)
  · exact absurd hnine (by decide)

theorem isDigit_char {c : Byte} (hc : isDigitOf false c = true) : isDigit c = true :=
  (of_decide_eq_true hc).resolve_right (by rintro ⟨⟨⟩, -⟩)

theorem isDigitOf_delimiter (hex : Bool) {c : Byte} (hc : isDelimiter c = true) :
    isDigitOf hex c = false := by
  cases hdigit : isDigitOf hex c with
  | false => rfl
  | true =>
    have hident := isIdentChar_delimiter hc
    rw [isIdentChar_digit hdigit] at hident
    cases hident

/-- A text of characters of a kind is what is taken while they are of that kind. -/
theorem takeWhile_text {test : Byte → Bool} {text rest : List Byte} (htext : ∀ c ∈ text, test c = true)
    (hrest : test (rest.headD 0) = false) :
    (text ++ rest).takeWhile test = text ∧ (text ++ rest).dropWhile test = rest := by
  rw [List.takeWhile_append_of_pos htext, List.dropWhile_append_of_pos htext]
  cases rest with
  | nil => exact ⟨List.append_nil text, rfl⟩
  | cons c rest =>
    have hc : ¬ test c = true := by
      rw [Bool.not_eq_true]
      exact hrest
    rw [List.takeWhile_cons_of_neg hc, List.dropWhile_cons_of_neg hc]
    exact ⟨List.append_nil text, rfl⟩

variable {mem : ℕ → Byte} {N i fuel : ℕ} {t : Tok} {text rest : List Byte}

/-- The token with the text `text` is read where `text` and then `rest` is left. -/
def ReadsText (mem : ℕ → Byte) (N fuel : ℕ) (t : Tok) (text rest : List Byte) : Prop :=
  ∀ i, At mem N i (text ++ rest) → ∃ j, At mem N j rest ∧
    Reads LexRequest.taken (lexToken mem fuel (text.headD 0)) i t j (textMemory text)

theorem readsText_word {x : Name} (hstart : isIdentStart (x.headD 0) = true)
    (hchars : ∀ c ∈ x, isIdentChar c = true) (hrest : isDelimiter (rest.headD 0) = true)
    (hfuel : (x ++ rest).length < fuel) : ReadsText mem N fuel (keywordType x) x rest := by
  intro i h
  obtain ⟨j, hj, hreads⟩ := lexIdent_reads LexRequest.taken h hfuel
  obtain ⟨htake, hdrop⟩ := takeWhile_text hchars (isIdentChar_delimiter hrest)
  rw [htake] at hreads
  rw [hdrop] at hj
  have hdigit := isDigit_of_start hstart
  refine ⟨j, hj, ?_⟩
  rw [lexToken, hdigit, if_neg (by decide), if_pos hstart, textMemory, if_pos hstart]
  exact hreads

/-- A token that asks for nothing. -/
theorem readsText_takes (htakes : Takes mem N (lexToken mem fuel (text.headD 0)) (text ++ rest) t rest)
    (hmemory : textMemory text = 0) : ReadsText mem N fuel t text rest := by
  intro i h
  obtain ⟨j, hdoes, hj⟩ := htakes i h
  exact ⟨j, hj, hmemory.symm ▸ hdoes.reads⟩

theorem textMemory_digit (h : isDigit (text.headD 0) = true) : textMemory text = 0 := by
  have hstart : isIdentStart (text.headD 0) = false := by
    cases hident : isIdentStart (text.headD 0) with
    | false => rfl
    | true =>
      rw [isDigit_of_start hident] at h
      cases h
  have hquote : text.headD 0 ≠ chr '"' := by
    intro hquote
    rw [hquote] at h
    exact absurd h (by decide)
  rw [textMemory, hstart, if_neg (by decide), if_neg hquote]

/-- A digit, or what may stand behind a token, does not make `0x` of a `0`. -/
theorem ne_x {c : Byte} (hc : isDigitOf false c = true ∨ isDelimiter c = true) :
    ¬ (c = chr 'x' ∨ c = chr 'X') := by
  rintro (rfl | rfl)
  · exact absurd hc (by decide)
  · exact absurd hc (by decide)

theorem readsText_decimal (v : U64) (hrest : isDelimiter (rest.headD 0) = true)
    (hfuel : (digitText 10 false v.toNat ++ rest).length < fuel) :
    ReadsText mem N fuel (.num v) (digitText 10 false v.toNat) rest := by
  have hdigits : ∀ c ∈ digitText 10 false v.toNat, isDigitOf false c = true :=
    isDigitOf_digitText false false v.toNat
  have hvalue : (digitText 10 false v.toNat).foldl (withDigit false) 0 = v := by
    have hfold := foldl_digitText false false v.toNat
    rwa [BitVec.ofNat_toNat, BitVec.setWidth_eq] at hfold
  obtain ⟨htake, hdrop⟩ := takeWhile_text hdigits (isDigitOf_delimiter false hrest)
  cases htext : digitText 10 false v.toNat with
  | nil => exact absurd htext (digitText_ne_nil false false v.toNat)
  | cons d text =>
    rw [htext] at hdigits hvalue htake hdrop hfuel
    obtain ⟨hd, hdigits⟩ := List.forall_mem_cons.mp hdigits
    have hdigit := isDigit_char hd
    have hdec : ¬ StartsHex (d :: (text ++ rest)) := by
      rintro ⟨-, hx⟩
      refine ne_x ?_ hx
      cases text with
      | nil => exact Or.inr hrest
      | cons c text => exact Or.inl (List.forall_mem_cons.mp hdigits).1
    refine readsText_takes ?_ (textMemory_digit hdigit)
    have htakes : Takes mem N (lexNumber mem fuel d) _ _ _ := lexNumber_takes_dec hdec hfuel
    rw [← List.cons_append, htake, hdrop, hvalue] at htakes
    rw [List.headD_cons, lexToken, if_pos hdigit]
    exact htakes

theorem readsText_hex (upper : Bool) (v : U64) (hrest : isDelimiter (rest.headD 0) = true)
    (hfuel : (chr '0' :: chr 'x' :: digitText 16 upper v.toNat ++ rest).length < fuel) :
    ReadsText mem N fuel (.num v) (chr '0' :: chr 'x' :: digitText 16 upper v.toNat) rest := by
  have hdigits : ∀ c ∈ digitText 16 upper v.toNat, isDigitOf true c = true :=
    isDigitOf_digitText true upper v.toNat
  have hvalue : (digitText 16 upper v.toNat).foldl (withDigit true) 0 = v := by
    have hfold := foldl_digitText true upper v.toNat
    rwa [BitVec.ofNat_toNat, BitVec.setWidth_eq] at hfold
  obtain ⟨htake, hdrop⟩ := takeWhile_text hdigits (isDigitOf_delimiter true hrest)
  have hlen : (digitText 16 upper v.toNat ++ rest).length < fuel := by
    rw [List.cons_append, List.cons_append, List.length_cons, List.length_cons] at hfuel
    omega
  refine readsText_takes ?_ (textMemory_digit (by exact (by decide : isDigit (chr '0') = true)))
  have htakes : Takes mem N (lexNumber mem fuel (chr '0')) _ _ _ :=
    lexNumber_takes_hex (Or.inl rfl) hlen
  rw [htake, hdrop, hvalue] at htakes
  exact htakes

/-! ### Operators -/

theorem operators_tail : ∀ e ∈ operators, ∀ c ∈ e.1.tail, isDelimiter c = false :=
  forall_table List.tail (by decide)

theorem operators_find : ∀ e ∈ operators, operators.find? (·.1 <+: e.1) = some e := by
  decide

theorem operators_head : ∀ e ∈ operators, e.1 ≠ [] ∧ isDigit (e.1.headD 0) = false ∧
    isIdentStart (e.1.headD 0) = false ∧ e.1.headD 0 ≠ chr '"' := by
  decide

/-- What stands behind an operator makes no longer one of it. -/
theorem operator_begins {e e' : Name × Tok} (he : e ∈ operators) (he' : e' ∈ operators)
    (hrest : isDelimiter (rest.headD 0) = true) : e'.1 <+: e.1 ++ rest ↔ e'.1 <+: e.1 := by
  refine ⟨fun hprefix ↦ ?_, fun hprefix ↦ hprefix.trans (List.prefix_append _ _)⟩
  rcases List.prefix_or_prefix_of_prefix hprefix (List.prefix_append e.1 rest) with h | ⟨ys, hys⟩
  · exact h
  · cases ys with
    | nil =>
      rw [List.append_nil] at hys
      exact hys ▸ List.prefix_rfl
    | cons c ys =>
      rw [← hys] at hprefix
      obtain ⟨zs, hzs⟩ := (List.prefix_append_right_inj e.1).mp hprefix
      have hhead : rest.headD 0 = c := by
        rw [← hzs]
        rfl
      have hc : c ∈ e'.1.tail := by
        obtain ⟨b, bs, hbs⟩ := List.exists_cons_of_ne_nil (operators_head e he).1
        rw [← hys, hbs]
        exact List.mem_append_right bs List.mem_cons_self
      rw [hhead, operators_tail e' he' c hc] at hrest
      cases hrest

theorem readsText_operator {e : Name × Tok} (he : e ∈ operators)
    (hrest : isDelimiter (rest.headD 0) = true) : ReadsText mem N fuel e.2 e.1 rest := by
  obtain ⟨hne, hdigit, hstart, hquote⟩ := operators_head e he
  have hfind : operators.find? (·.1 <+: e.1 ++ rest) = some e := by
    refine Eq.trans (List.find?_congr fun e' he' ↦ ?_) (operators_find e he)
    exact decide_eq_decide.mpr (operator_begins he he' hrest)
  refine readsText_takes ?_ ?_
  · rw [lexToken, hdigit, hstart, if_neg (by decide), if_neg (by decide), if_neg hquote]
    exact lexOperator_takes operators_ne_zero hfind
  · rw [textMemory, hstart, if_neg (by decide), if_neg hquote]

/-! ### Strings -/

theorem printByte_cases (c : Byte) :
    printByte c = [c] ∧ c ≠ chr '"' ∧ c ≠ chr '\\' ∨
      ∃ d, printByte c = [chr '\\', d] ∧ escaped d = c := by
  unfold printByte
  split_ifs with hslash hquote hnewline htab hreturn
  · exact Or.inr ⟨_, rfl, (by decide : escaped (chr '\\') = chr '\\').trans hslash.symm⟩
  · exact Or.inr ⟨_, rfl, (by decide : escaped (chr '"') = chr '"').trans hquote.symm⟩
  · exact Or.inr ⟨_, rfl, (by decide : escaped (chr 'n') = chr '\n').trans hnewline.symm⟩
  · exact Or.inr ⟨_, rfl, (by decide : escaped (chr 't') = chr '\t').trans htab.symm⟩
  · exact Or.inr ⟨_, rfl, (by decide : escaped (chr 'r') = chr '\r').trans hreturn.symm⟩
  · exact Or.inl ⟨rfl, hquote, hslash⟩

theorem textByte_printByte (c : Byte) (bs : List Byte) : TextByte (printByte c ++ bs) c bs := by
  rcases printByte_cases c with ⟨hprint, hquote, hslash⟩ | ⟨d, hprint, rfl⟩
  · rw [hprint]
    exact .plain hquote hslash
  · rw [hprint]
    exact .escape d bs

theorem length_le_printed (s : Name) : s.length ≤ (s.flatMap printByte).length := by
  induction s with
  | nil => exact le_rfl
  | cons c s ih =>
    rw [List.flatMap_cons, List.length_append, List.length_cons]
    rcases printByte_cases c with ⟨hprint, -, -⟩ | ⟨d, hprint, -⟩
    · rw [hprint, List.length_singleton]
      omega
    · rw [hprint, List.length_cons, List.length_singleton]
      omega

/-- The loop over a printed string. -/
theorem strLoop_printed (null : Bool) (buf : Name) {s : Name}
    (hlen : buf.length + s.length < strSize) (h : At mem N i (s.flatMap printByte ++ chr '"' :: rest))
    (hfuel : s.length < fuel) :
    ∃ j, At mem N j (chr '"' :: rest) ∧
      Does (InSource N) (strLoop mem null fuel buf) i (buf ++ s) j := by
  induction s generalizing i fuel buf with
  | nil =>
    obtain ⟨fuel, rfl⟩ := Nat.exists_eq_add_of_lt hfuel
    rw [List.append_nil]
    exact ⟨i, h, strLoop_quote h⟩
  | cons c s ih =>
    obtain ⟨fuel, rfl⟩ : ∃ fuel', fuel = fuel' + 1 := ⟨fuel - 1, by omega⟩
    rw [List.length_cons] at hlen hfuel
    rw [List.flatMap_cons, List.append_assoc] at h
    obtain ⟨j, hj, hcomes⟩ := (textByte_printByte c _).strLoop null fuel buf h
    have hgrown : (buf ++ [c]).length = buf.length + 1 := List.length_append
    rw [strMore, if_neg (by omega)] at hcomes
    obtain ⟨k, hk, hdoes⟩ := ih (buf ++ [c]) (by omega) hj (by omega : s.length < fuel)
    rw [List.append_assoc] at hdoes
    exact ⟨k, hk, hcomes.does hdoes⟩

theorem readsText_str {s : Name} (hlen : s.length < strSize)
    (hfuel : (chr '"' :: (s.flatMap printByte ++ [chr '"']) ++ rest).length < fuel) :
    ReadsText mem N fuel (.str s) (chr '"' :: (s.flatMap printByte ++ [chr '"'])) rest := by
  intro i h
  have htail : At mem N (i + 1) (s.flatMap printByte ++ chr '"' :: rest) := by
    have htail := h.tail
    rwa [List.append_eq, List.append_assoc] at htail
  have hshort : s.length < fuel := by
    have hle := length_le_printed s
    simp only [List.cons_append, List.length_cons, List.length_append] at hfuel
    omega
  obtain ⟨j, hj, hdoes⟩ := strLoop_printed false [] (by rwa [List.length_nil, Nat.zero_add]) htail hshort
  obtain ⟨k, hskip, hk⟩ := skipQuote_takes rest j hj
  have hput : Does (InSource N) (do
      report (.put false s.length)
      pure (Tok.str s) : Lex Tok) k (.str s) k := (does_report trivial k).bind (does_pure _ _ k)
  have hfirst := does_advance (ρ := LexRequest) (InSource N) 1 i
  have hmemory : textMemory (chr '"' :: (s.flatMap printByte ++ [chr '"'])) =
      LexRequest.taken .string + 0 := rfl
  refine ⟨k, hk, hfirst.reads_bind ?_⟩
  rw [hmemory]
  exact reads_bind (reads_request _ (i + 1)) (hdoes.bind (hskip.bind hput)).reads

/-! ### All tokens -/

theorem keywords_text : ∀ e ∈ keywords, keywordType e.1 = e.2 ∧
    isIdentStart (e.1.headD 0) = true ∧ ∀ c ∈ e.1, isIdentChar c = true := by
  have htype : ∀ e ∈ keywords, keywordType e.1 = e.2 ∧ isIdentStart (e.1.headD 0) = true := by
    decide
  have hchars : ∀ e ∈ keywords, ∀ c ∈ e.1, isIdentChar c = true := forall_table id (by decide)
  exact fun e he ↦ ⟨(htype e he).1, (htype e he).2, hchars e he⟩

theorem keywordType_ident {x : Name} (hword : ∀ e ∈ keywords, e.1 ≠ x) :
    keywordType x = .ident x := by
  have hnone : keywords.find? (·.1 = x) = none :=
    List.find?_eq_none.mpr fun e he ↦ by
      rw [decide_eq_true_eq]
      exact hword e he
  rw [keywordType, hnone]

/-- A token is read from its text. -/
theorem Spells.readsText (h : Spells t text) (hrest : isDelimiter (rest.headD 0) = true)
    (hfuel : (text ++ rest).length < fuel) : ReadsText mem N fuel t text rest := by
  cases h with
  | operator hop => exact readsText_operator hop hrest
  | keyword hkw =>
    obtain ⟨htype, hstart, hchars⟩ := keywords_text _ hkw
    have hreads : ReadsText mem N fuel _ _ rest := readsText_word hstart hchars hrest hfuel
    rwa [htype] at hreads
  | ident hstart hchars hword =>
    have hreads : ReadsText mem N fuel _ _ rest := readsText_word hstart hchars hrest hfuel
    rwa [keywordType_ident hword] at hreads
  | decimal v => exact readsText_decimal v hrest hfuel
  | hex upper v => exact readsText_hex upper v hrest hfuel
  | str hlen hnul => exact readsText_str hlen hfuel

theorem operators_first : ∀ e ∈ operators, isSpace (e.1.headD 0) = false ∧
    (e.1.headD 0 ≠ chr '/' ∨ e.1 = [chr '/', chr '='] ∨ e.2 = .slash ∧ e.1 = [chr '/']) := by
  decide

theorem ident_first {c : Byte} (hc : isIdentChar c = true) : isSpace c = false ∧ c ≠ chr '/' := by
  refine ⟨decide_eq_false ?_, ?_⟩
  · rintro (rfl | rfl | rfl | rfl) <;> exact absurd hc (by decide)
  · rintro rfl
    exact absurd hc (by decide)

theorem ne_nil_of_start (h : isIdentStart (text.headD 0) = true) : text ≠ [] := by
  rintro rfl
  exact absurd h (by exact (by decide : ¬ isIdentStart 0 = true))

/-- The first character of a token is no space, and it is `/` in two operators only. -/
theorem Spells.first (h : Spells t text) : text ≠ [] ∧ isSpace (text.headD 0) = false ∧
    (text.headD 0 ≠ chr '/' ∨ text = [chr '/', chr '='] ∨ t = .slash ∧ text = [chr '/']) := by
  cases h with
  | operator hop => exact ⟨(operators_head _ hop).1, operators_first _ hop⟩
  | keyword hkw =>
    have hstart := (keywords_text _ hkw).2.1
    obtain ⟨hspace, hslash⟩ := ident_first (decide_eq_true (Or.inl hstart))
    exact ⟨ne_nil_of_start hstart, hspace, Or.inl hslash⟩
  | ident hstart hchars hword =>
    obtain ⟨hspace, hslash⟩ := ident_first (decide_eq_true (Or.inl hstart))
    exact ⟨ne_nil_of_start hstart, hspace, Or.inl hslash⟩
  | decimal v =>
    have hdigits : ∀ c ∈ digitText 10 false v.toNat, isDigitOf false c = true :=
      isDigitOf_digitText false false v.toNat
    cases htext : digitText 10 false v.toNat with
    | nil => exact absurd htext (digitText_ne_nil false false v.toNat)
    | cons d text =>
      rw [htext] at hdigits
      obtain ⟨hspace, hslash⟩ := ident_first (isIdentChar_digit (List.forall_mem_cons.mp hdigits).1)
      exact ⟨List.cons_ne_nil _ _, hspace, Or.inl hslash⟩
  | hex upper v => exact ⟨List.cons_ne_nil _ _, rfl, Or.inl (by exact (by decide : chr '0' ≠ chr '/'))⟩
  | str hlen hnul => exact ⟨List.cons_ne_nil _ _, rfl, Or.inl (by exact (by decide : chr '"' ≠ chr '/'))⟩

/-- No comment begins at a token, unless the token is `/` and the comment goes on behind it. -/
theorem Spells.not_opens {c : Byte} (hc : c = chr '/' ∨ c = chr '*') (h : Spells t text)
    (hslash : t = .slash → rest.headD 0 ≠ c) : ¬ Opens c (text ++ rest) := by
  obtain ⟨hne, -, hfirst⟩ := h.first
  obtain ⟨b, bs, rfl⟩ := List.exists_cons_of_ne_nil hne
  rintro ⟨hopen, hnext⟩
  rcases hfirst with hother | heq | ⟨ht, heq⟩
  · exact hother hopen
  · obtain ⟨rfl, rfl⟩ := List.cons.inj heq
    obtain rfl : chr '=' = c := hnext
    exact absurd hc (by decide)
  · obtain ⟨rfl, rfl⟩ := List.cons.inj heq
    exact hslash ht hnext

/-! ### Gaps -/

/-- A comment: a `//` and the rest of its line, or a `/*` and a text that is closed at its end. -/
inductive Comment : List Byte → Prop
  | line {text : List Byte} (htext : ∀ c ∈ text, inLine c = true) :
    Comment (chr '/' :: chr '/' :: (text ++ [chr '\n']))
  | block {text : List Byte} (htext : ∀ c ∈ text, c ≠ 0)
    (hopen : ¬ [chr '*', chr '/'] <:+: text) :
    Comment (chr '/' :: chr '*' :: (text ++ [chr '*', chr '/']))

/-- Spaces and comments. -/
inductive Gap : List Byte → Prop
  | nil : Gap []
  | space {c : Byte} {gap : List Byte} (hc : isSpace c = true) (hgap : Gap gap) : Gap (c :: gap)
  | comment {text gap : List Byte} (htext : Comment text) (hgap : Gap gap) : Gap (text ++ gap)

/-- The end of a block comment whose text is not closed before. -/
theorem atBlockEnd_append {bs : List Byte} (hopen : ¬ [chr '*', chr '/'] <:+: text) :
    atBlockEnd (text ++ chr '*' :: chr '/' :: bs) = chr '*' :: chr '/' :: bs := by
  induction text with
  | nil => exact if_pos ⟨rfl, rfl⟩
  | cons c text ih =>
    have hrest : ¬ [chr '*', chr '/'] <:+: text := fun hinside ↦
      hopen (hinside.trans (List.suffix_cons c text).isInfix)
    rw [List.cons_append, atBlockEnd, if_neg, ih hrest]
    rintro ⟨rfl, hnext⟩
    cases text with
    | nil => exact absurd hnext (by exact (by decide : chr '*' ≠ chr '/'))
    | cons d text =>
      obtain rfl : d = chr '/' := hnext
      exact hopen ⟨[], text, rfl⟩

theorem Gap.cases {gap : List Byte} (h : Gap gap) :
    (∀ c ∈ gap, isSpace c = true) ∨
      ∃ ws text gap', (∀ c ∈ ws, isSpace c = true) ∧ Comment text ∧ Gap gap' ∧
        gap = ws ++ (text ++ gap') := by
  induction h with
  | nil => exact Or.inl (List.forall_mem_nil _)
  | space hc hgap ih =>
    rcases ih with hspaces | ⟨ws, text, gap', hws, htext, hgap', rfl⟩
    · exact Or.inl (List.forall_mem_cons.mpr ⟨hc, hspaces⟩)
    · exact Or.inr ⟨_ :: ws, text, gap', List.forall_mem_cons.mpr ⟨hc, hws⟩, htext, hgap', rfl⟩
  | comment htext hgap => exact Or.inr ⟨[], _, _, List.forall_mem_nil _, htext, hgap, rfl⟩

variable {maxtoks : ℕ} {toks : List Tok} {gap : List Byte}

theorem Comment.two_le (h : Comment text) : 2 ≤ text.length := by
  cases h with
  | line => exact Nat.le_add_left 2 _
  | block => exact Nat.le_add_left 2 _

theorem Comment.head (h : Comment text) (bs : List Byte) : (text ++ bs).headD 0 = chr '/' := by
  cases h with
  | line => rfl
  | block => rfl

/-- The loop passes a comment. What ends a line is left as a space. -/
theorem lexLoop_comment {ws bs : List Byte} (maxtoks : ℕ) (toks : List Tok)
    (hws : ∀ c ∈ ws, isSpace c = true) (htext : Comment text) (h : At mem N i (ws ++ (text ++ bs)))
    (hfuel : (ws ++ (text ++ bs)).length < fuel) :
    ∃ j bs', At mem N j bs' ∧ (bs' = bs ∨ bs' = chr '\n' :: bs) ∧
      Comes (InSource N) (lexLoop mem maxtoks (fuel + 1) toks) i (lexLoop mem maxtoks fuel toks) j := by
  cases htext with
  | @line text htext =>
    have hdrop := (takeWhile_text hws (by rfl : isSpace
      ((chr '/' :: chr '/' :: (text ++ [chr '\n']) ++ bs).headD 0) = false)).2
    have hopens : Opens (chr '/') (chr '/' :: chr '/' :: (text ++ [chr '\n']) ++ bs) := ⟨rfl, rfl⟩
    rw [← hdrop] at hopens
    obtain ⟨j, hj, hcomes⟩ := lexLoop_line maxtoks toks h hfuel hopens
    have hline : ∀ c ∈ chr '/' :: chr '/' :: text, inLine c = true :=
      List.forall_mem_cons.mpr ⟨by decide, List.forall_mem_cons.mpr ⟨by decide, htext⟩⟩
    have hsplit : chr '/' :: chr '/' :: (text ++ [chr '\n']) ++ bs =
        chr '/' :: chr '/' :: text ++ chr '\n' :: bs := by
      rw [List.cons_append, List.cons_append, List.append_assoc]
      rfl
    rw [hdrop, hsplit, (takeWhile_text hline (by rfl)).2] at hj
    exact ⟨j, _, hj, Or.inr rfl, hcomes⟩
  | @block text htext hopen =>
    have hsplit : chr '/' :: chr '*' :: (text ++ [chr '*', chr '/']) ++ bs =
        chr '/' :: chr '*' :: (text ++ chr '*' :: chr '/' :: bs) := by
      rw [List.cons_append, List.cons_append, List.append_assoc]
      rfl
    rw [hsplit] at h hfuel
    have hdrop := (takeWhile_text hws (by rfl : isSpace
      ((chr '/' :: chr '*' :: (text ++ chr '*' :: chr '/' :: bs)).headD 0) = false)).2
    obtain ⟨j, hj, hcomes⟩ := lexLoop_block maxtoks toks h hfuel hdrop
      (fun hopens ↦ absurd hopens.2 (by exact (by decide : chr '*' ≠ chr '/'))) ⟨rfl, rfl⟩
    rw [atBlockEnd_append hopen] at hj
    exact ⟨j, bs, hj, Or.inl rfl, hcomes⟩

/-- The loop passes a gap and stands at what is behind it. -/
theorem lexLoop_gap (maxtoks : ℕ) (toks : List Tok) (hgap : Gap gap) (h : At mem N i (gap ++ rest))
    (hfuel : (gap ++ rest).length + 1 < fuel) (hspace : isSpace (rest.headD 0) = false)
    (hline : ¬ Opens (chr '/') rest) (hblock : ¬ Opens (chr '*') rest) :
    ∃ j fuel', At mem N j rest ∧ rest.length < fuel' ∧
      Comes (InSource N) (lexLoop mem maxtoks fuel toks) i (lexHead mem maxtoks fuel' toks) j := by
  induction fuel generalizing gap i with
  | zero => exact absurd hfuel (Nat.not_lt_zero _)
  | succ fuel ih =>
    have hfuel' := Nat.lt_of_succ_lt_succ hfuel
    rw [List.length_append] at hfuel
    rcases hgap.cases with hspaces | ⟨ws, text, gap', hws, htext, hgap', rfl⟩
    · have hdrop := (takeWhile_text hspaces hspace).2
      rw [← hdrop] at hline hblock
      obtain ⟨j, hj, hcomes⟩ := lexLoop_head maxtoks toks h hfuel' hline hblock
      rw [hdrop] at hj
      exact ⟨j, fuel, hj, by omega, hcomes⟩
    · rw [List.append_assoc, List.append_assoc] at h hfuel'
      obtain ⟨j, bs', hj, hbs', hcomes⟩ := lexLoop_comment maxtoks toks hws htext h hfuel'
      have htwo := htext.two_le
      have hshort : bs'.length + 1 < fuel := by
        rw [List.length_append, List.length_append] at hfuel'
        rcases hbs' with rfl | rfl
        · omega
        · rw [List.length_cons]
          omega
      obtain ⟨gap₂, hgap₂, rfl⟩ : ∃ gap₂, Gap gap₂ ∧ bs' = gap₂ ++ rest := by
        rcases hbs' with rfl | rfl
        · exact ⟨gap', hgap', rfl⟩
        · exact ⟨chr '\n' :: gap', .space (by decide) hgap', rfl⟩
      obtain ⟨k, fuel₂, hk, hlen, hcomes'⟩ := ih hgap₂ hj hshort
      exact ⟨k, fuel₂, hk, hlen, hcomes.trans hcomes'⟩

/-! ### Printing -/

/-- The tokens are printed as `bs`, with gaps as `sep` allows them behind each token, or none at the
end; the lexer takes `n` bytes of the arena for them. -/
inductive Printed (sep : Tok → List Byte → Prop) : List Tok → List Byte → ℕ → Prop
  | nil : Printed sep [] [] 0
  | cons {t : Tok} {ts : List Tok} {text gap bs : List Byte} {n : ℕ} (htext : Spells t text)
    (hgap : sep t gap ∨ gap = [] ∧ ts = []) (hrest : Printed sep ts bs n) :
    Printed sep (t :: ts) (text ++ (gap ++ bs)) (textMemory text + n)

/-- A gap behind a token: not nothing, and a space first behind a `/`. -/
structure Separates (t : Tok) (gap : List Byte) : Prop where
  spaced : Gap gap
  ne_nil : gap ≠ []
  slash : t = .slash → isSpace (gap.headD 0) = true

/-- One space, with comments in front of it and behind it. -/
def Commented (_ : Tok) (gap : List Byte) : Prop :=
  ∃ cs cs' : List (List Byte), (∀ c ∈ cs, Comment c) ∧ (∀ c ∈ cs', Comment c) ∧
    gap = cs.flatten ++ chr ' ' :: cs'.flatten

theorem Gap.head (h : Gap gap) (hne : gap ≠ []) (bs : List Byte) :
    isDelimiter ((gap ++ bs).headD 0) = true := by
  cases h with
  | nil => exact absurd rfl hne
  | space hc hgap => exact decide_eq_true (Or.inr (Or.inl hc))
  | comment htext hgap =>
    rw [List.append_assoc, htext.head]
    decide

/-- What is behind the text of a printed token. -/
theorem printed_behind {ts : List Tok} {bs : List Byte} {n : ℕ}
    (hsep : Separates t gap ∨ gap = [] ∧ ts = []) (hrest : Printed Separates ts bs n) :
    Gap gap ∧ isDelimiter ((gap ++ bs).headD 0) = true ∧
      (t = .slash → (gap ++ bs).headD 0 = 0 ∨ isSpace ((gap ++ bs).headD 0) = true) := by
  rcases hsep with hsep | ⟨rfl, rfl⟩
  · refine ⟨hsep.spaced, hsep.spaced.head hsep.ne_nil bs, fun ht ↦ Or.inr ?_⟩
    obtain ⟨c, gap', rfl⟩ := List.exists_cons_of_ne_nil hsep.ne_nil
    exact hsep.slash ht
  · cases hrest
    exact ⟨.nil, by decide, fun _ ↦ Or.inl rfl⟩

/-- The lexer gives printed tokens back. -/
theorem lexLoop_printed {ts : List Tok} {bs : List Byte} {n : ℕ} (h : Printed Separates ts bs n)
    (hgap : Gap gap) (hat : At mem N i (gap ++ bs)) (hfuel : (gap ++ bs).length + 1 < fuel)
    (hroom : toks.length + ts.length < maxtoks) :
    Reads LexRequest.taken (lexLoop mem maxtoks fuel toks) i (toks ++ (ts ++ [.eof])) N n := by
  induction h generalizing gap i fuel toks with
  | nil =>
    obtain ⟨j, fuel', hj, -, hcomes⟩ := lexLoop_gap maxtoks toks hgap hat hfuel (by decide)
      (by decide) (by decide)
    have hend : j = N := (Nat.add_zero j).symm.trans hj.len
    subst hend
    exact hcomes.reads (lexHead_end hj hroom).reads
  | @cons t ts text gap' bs n htext hsep hrest ih =>
    obtain ⟨hgap', hdelimiter, hslash⟩ := printed_behind hsep hrest
    obtain ⟨hne, hspace, -⟩ := htext.first
    have hopens : ∀ c, c = chr '/' ∨ c = chr '*' → ¬ Opens c (text ++ (gap' ++ bs)) := by
      intro c hc
      refine htext.not_opens hc fun ht hnext ↦ ?_
      have hslash := hslash ht
      rw [hnext] at hslash
      rcases hc with rfl | rfl
      · exact absurd hslash (by decide)
      · exact absurd hslash (by decide)
    obtain ⟨c, cs, rfl⟩ := List.exists_cons_of_ne_nil hne
    obtain ⟨j, fuel', hj, hlen, hcomes⟩ := lexLoop_gap maxtoks toks hgap hat hfuel hspace
      (hopens _ (Or.inl rfl)) (hopens _ (Or.inr rfl))
    rw [List.length_cons] at hroom
    obtain ⟨k, hk, hreads⟩ := htext.readsText hdelimiter hlen j hj
    refine hcomes.reads ((lexHead_token hj (by omega)).reads (reads_bind hreads ?_))
    have hgrown : (toks ++ [t]).length = toks.length + 1 := List.length_append
    have hshort : (gap' ++ bs).length + 1 < fuel' := by
      rw [List.length_append, List.length_cons] at hlen
      omega
    have hrest := ih hgap' hk hshort (by omega : (toks ++ [t]).length + ts.length < maxtoks)
    rwa [List.append_assoc] at hrest

/-! ### What is printed has no NUL -/

theorem ident_ne_zero {c : Byte} (hc : isIdentChar c = true) : c ≠ 0 := by
  rintro rfl
  exact absurd hc (by decide)

theorem Spells.ne_zero (h : Spells t text) : ∀ c ∈ text, c ≠ 0 := by
  have hdigits : ∀ hex upper v, ∀ c ∈ digitText (radix hex) upper v, c ≠ 0 := fun hex upper v c hc ↦
    ident_ne_zero (isIdentChar_digit (isDigitOf_digitText hex upper v c hc))
  cases h with
  | operator hop => exact operators_ne_zero _ hop
  | keyword hkw => exact fun c hc ↦ ident_ne_zero ((keywords_text _ hkw).2.2 c hc)
  | ident hstart hchars => exact fun c hc ↦ ident_ne_zero (hchars c hc)
  | decimal v => exact hdigits false false v.toNat
  | hex upper v =>
    exact List.forall_mem_cons.mpr ⟨by decide, List.forall_mem_cons.mpr
      ⟨by decide, hdigits true upper v.toNat⟩⟩
  | @str s hlen hnul =>
    refine List.forall_mem_cons.mpr ⟨by decide, List.forall_mem_append.mpr
      ⟨fun c hc ↦ ?_, List.forall_mem_singleton.mpr (by decide)⟩⟩
    obtain ⟨b, hb, hc⟩ := List.mem_flatMap.mp hc
    have hb := hnul b hb
    rcases printByte_cases b with ⟨hprint, -, -⟩ | ⟨d, hprint, rfl⟩
    · rw [hprint] at hc
      rwa [List.mem_singleton.mp hc]
    · rw [hprint] at hc
      rcases List.mem_cons.mp hc with rfl | hc
      · decide
      · obtain rfl := List.mem_singleton.mp hc
        rintro rfl
        exact hb (by decide)

theorem Comment.ne_zero (h : Comment text) : ∀ c ∈ text, c ≠ 0 := by
  cases h with
  | line htext =>
    refine List.forall_mem_cons.mpr ⟨by decide, List.forall_mem_cons.mpr ⟨by decide,
      List.forall_mem_append.mpr ⟨fun c hc ↦ ?_, List.forall_mem_singleton.mpr (by decide)⟩⟩⟩
    exact (of_decide_eq_true (htext c hc)).1
  | block htext =>
    exact List.forall_mem_cons.mpr ⟨by decide, List.forall_mem_cons.mpr ⟨by decide,
      List.forall_mem_append.mpr ⟨htext, by decide⟩⟩⟩

theorem Gap.ne_zero (h : Gap gap) : ∀ c ∈ gap, c ≠ 0 := by
  induction h with
  | nil => exact List.forall_mem_nil _
  | space hc hgap ih =>
    refine List.forall_mem_cons.mpr ⟨?_, ih⟩
    rintro rfl
    exact absurd hc (by decide)
  | comment htext hgap ih => exact List.forall_mem_append.mpr ⟨htext.ne_zero, ih⟩

theorem Printed.ne_zero {ts : List Tok} {bs : List Byte} {n : ℕ} (h : Printed Separates ts bs n) :
    ∀ c ∈ bs, c ≠ 0 := by
  induction h with
  | nil => exact List.forall_mem_nil _
  | cons htext hsep hrest ih =>
    exact List.forall_mem_append.mpr ⟨htext.ne_zero,
      List.forall_mem_append.mpr ⟨(printed_behind hsep hrest).1.ne_zero, ih⟩⟩

/-! ### Lexing -/

/-- With gaps as `sep` allows them, and a gap in front of everything, `noc_lex` makes of the printed
tokens these tokens and the end of the input, if there is room for them and memory. -/
def LexingInvertsPrinting (sep : Tok → List Byte → Prop) : Prop :=
  ∀ toks gap bs n mem maxtoks fuel a, Gap gap → Printed sep toks bs n →
    (∀ k ≤ (gap ++ bs).length, mem k = memOf (gap ++ bs) k) → toks.length < maxtoks →
    (gap ++ bs).length + 1 < fuel → a.Fits n →
    (runLexer mem maxtoks fuel a).value = (.ok (toks ++ [.eof]), (gap ++ bs).length)

theorem stringAt_congr {mem mem' : ℕ → Byte} {bs : List Byte} {i : ℕ}
    (hmem : ∀ k ≤ bs.length, mem (i + k) = mem' (i + k)) (h : StringAt mem' i bs) :
    StringAt mem i bs := by
  induction bs generalizing i with
  | nil => exact (hmem 0 le_rfl).trans h
  | cons c bs ih =>
    obtain ⟨hc, hbyte, hrest⟩ := h
    refine ⟨hc, (hmem 0 (Nat.zero_le _)).trans hbyte, ih (fun k hk ↦ ?_) hrest⟩
    have hnext := hmem (k + 1) (Nat.succ_le_succ hk)
    rwa [← Nat.add_assoc, Nat.add_right_comm] at hnext

/-- Lexing inverts printing with spaces and comments between the tokens, where a `/` has a space
directly behind it. -/
theorem nocLex_inverts_printing : LexingInvertsPrinting Separates := by
  intro toks gap bs n mem maxtoks fuel a hgap hprinted hmem hroom hfuel harena
  have htext : StringAt mem 0 (gap ++ bs) := by
    refine stringAt_congr (fun k hk ↦ ?_) (stringAt_memOf []
      (List.forall_mem_append.mpr ⟨hgap.ne_zero, hprinted.ne_zero⟩))
    rw [Nat.zero_add]
    exact hmem k hk
  obtain ⟨hvalue, hdemands⟩ := lexLoop_printed hprinted hgap ⟨htext, Nat.zero_add _⟩ hfuel
    (by rwa [List.length_nil, Nat.zero_add] : ([] : List Tok).length + toks.length < maxtoks)
  have hmeets : Dialog.Meets (Arena.answer LexRequest.size) a (nocLex mem maxtoks fuel 0).demands := by
    refine meets_of_fits (fun r _ ↦ ?_) ?_
    · cases r with
      | identifier len => exact Nat.succ_pos len
      | string => decide
      | message => decide
    · rw [← hdemands] at harena
      exact harena
  exact (Dialog.run_eq_of_meets hmeets).1.trans hvalue

/-- `a / /*c*/ "\n" //d` and `0x1f` on the next line. -/
theorem nocLex_inverts_printing_quotient :
    (runLexer (memOf (cstr "a / /*c*/ \"\\n\" //d\n0x1f")) nocMaxToks 40
        ⟨0x100000#64, 0#64, 0x100000#64⟩).value =
      (.ok [.ident (cstr "a"), .slash, .str [chr '\n'], .num 31, .eof], 23) := by
  have hspace : ∀ t, t ≠ .slash → Separates t [chr ' '] := fun t ht ↦
    ⟨.space (by decide) .nil, by decide, fun hslash ↦ absurd hslash ht⟩
  have hblock : Comment (chr '/' :: chr '*' :: ([chr 'c'] ++ [chr '*', chr '/'])) :=
    .block (by decide) (by decide)
  have hline : Comment (chr '/' :: chr '/' :: ([chr 'd'] ++ [chr '\n'])) := .line (by decide)
  have hblank : isSpace (chr ' ') = true := by decide
  have hslash : Separates .slash _ :=
    ⟨.space hblank (.comment hblock (.space hblank .nil)), by decide, fun _ ↦ by decide⟩
  have hstr : Separates (.str [chr '\n']) _ :=
    ⟨.space hblank (.comment hline .nil), by decide, by decide⟩
  have hprinted : Printed Separates [.ident (cstr "a"), .slash, .str [chr '\n'], .num 31] _ _ :=
    .cons (.ident (by decide) (by decide) (by decide +kernel)) (Or.inl (hspace _ (by decide)))
      (.cons (.operator (by decide +kernel : (cstr "/", Tok.slash) ∈ operators)) (Or.inl hslash)
        (.cons (.str (by decide) (by decide)) (Or.inl hstr)
          (.cons (.hex false 31) (Or.inr ⟨rfl, rfl⟩) .nil)))
  exact nocLex_inverts_printing _ _ _ _ _ _ _ _ .nil hprinted
    (fun k _ ↦ congrFun (congrArg memOf (by decide +kernel)) k) (by decide) (by decide +kernel)
    ⟨by decide, by decide +kernel, by decide⟩
/-- `a //*c*/ b`: a comment directly behind the operator begins a comment with it. -/
theorem not_inverts_printing_commented : ¬ LexingInvertsPrinting Commented := by
  intro hinverts
  have hcomment : Comment (chr '/' :: chr '*' :: ([chr 'c'] ++ [chr '*', chr '/'])) :=
    .block (by decide) (by decide)
  have hspace : Commented (.ident [chr 'a']) [chr ' '] :=
    ⟨[], [], List.forall_mem_nil _, List.forall_mem_nil _, rfl⟩
  have hinserted : Commented .slash (cstr "/*c*/ ") :=
    ⟨[_], [], List.forall_mem_singleton.mpr hcomment, List.forall_mem_nil _, by decide +kernel⟩
  have hprinted : Printed Commented [.ident [chr 'a'], .slash, .ident [chr 'b']] _ _ :=
    .cons (.ident (by decide) (by decide) (by decide +kernel)) (Or.inl hspace)
      (.cons (.operator (by decide +kernel : (cstr "/", Tok.slash) ∈ operators)) (Or.inl hinserted)
        (.cons (.ident (by decide) (by decide) (by decide +kernel)) (Or.inr ⟨rfl, rfl⟩) .nil))
  have hvalue := hinverts _ _ _ _ _ nocMaxToks 16 ⟨0x100000#64, 12288#64, 0x100000#64⟩ .nil hprinted
    (fun _ _ ↦ rfl) (by decide) (by decide +kernel) ⟨by decide, by decide +kernel, by decide⟩
  exact absurd hvalue (by decide +kernel)

end NoOsKernel.Noc
