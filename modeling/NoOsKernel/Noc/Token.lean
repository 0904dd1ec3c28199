import NoOsKernel.Kern.Format
import NoOsKernel.Noc.Registry

/-!
# Tokens of NOC

`tok` of `include/noc.h`, and the keywords and operators of `kernel/noc/lexer.c`. A kind of token that
has a number or a text carries it, so that there is no token with a field that was never set; the
text of a keyword, which nothing reads, is left out. The types are one kind with their `NTYPE_*`.
-/

set_option autoImplicit false
set_option relaxedAutoImplicit false

namespace NoOsKernel.Noc

open Lib Kern

/-- `tok_t` with the number or the text of the token. -/
inductive Tok where
  | eof
  | num (v : U64)
  | str (s : Name)
  | ident (x : Name)
  | lp
  | rp
  | lb
  | rb
  | semi
  | comma
  | plus
  | minus
  | star
  | slash
  | pct
  | eq
  | eqeq
  | neq
  | lt
  | le
  | gt
  | ge
  | andand
  | oror
  | bang
  | amp
  | pipe
  | caret
  | tilde
  | shl
  | shr
  | plusplus
  | minusminus
  | pluseq
  | minuseq
  | stareq
  | slasheq
  | kwIf
  | kwElse
  | kwWhile
  | kwFor
  | kwReturn
  | kwTrue
  | kwFalse
  | type (t : NType)
  deriving DecidableEq

/-- `NOC_MAX_TOKS`. -/
def nocMaxToks : ℕ := 512

/-- `map` of `keyword_type`. -/
def keywords : List (Name × Tok) :=
  [(cstr "U0", .type .void), (cstr "I64", .type .i64), (cstr "U64", .type .u64),
    (cstr "Bool", .type .bool), (cstr "Str", .type .str),
    (cstr "U8", .type .u8), (cstr "U16", .type .u16), (cstr "U32", .type .u32),
    (cstr "I8", .type .i8), (cstr "I16", .type .i16), (cstr "I32", .type .i32),
    (cstr "F64", .type .f64),
    (cstr "if", .kwIf), (cstr "else", .kwElse), (cstr "while", .kwWhile),
    (cstr "for", .kwFor), (cstr "return", .kwReturn),
    (cstr "true", .kwTrue), (cstr "false", .kwFalse)]

/-- `keyword_type`, with the token that it is for. -/
def keywordType (s : Name) : Tok :=
  match keywords.find? (·.1 = s) with
  | some (_, t) => t
  | none => .ident s

/-- `ops` of `noc_lex`. -/
def operators : List (Name × Tok) :=
  [(cstr "==", .eqeq), (cstr "!=", .neq), (cstr "<=", .le), (cstr ">=", .ge),
    (cstr "&&", .andand), (cstr "||", .oror), (cstr "<<", .shl), (cstr ">>", .shr),
    (cstr "++", .plusplus), (cstr "--", .minusminus),
    (cstr "+=", .pluseq), (cstr "-=", .minuseq), (cstr "*=", .stareq), (cstr "/=", .slasheq),
    (cstr "(", .lp), (cstr ")", .rp), (cstr "\x7b", .lb), (cstr "\x7d", .rb),
    (cstr ";", .semi), (cstr ",", .comma), (cstr "+", .plus), (cstr "-", .minus),
    (cstr "*", .star), (cstr "/", .slash), (cstr "%", .pct), (cstr "=", .eq),
    (cstr "<", .lt), (cstr ">", .gt), (cstr "!", .bang), (cstr "&", .amp),
    (cstr "|", .pipe), (cstr "^", .caret), (cstr "~", .tilde)]

/-- What holds of all bytes in a table. The test goes over the table, where `decide` alone would go
over all bytes there are. -/
theorem forall_table {table : List (Name × Tok)} (part : Name → Name) {p : Byte → Prop}
    [DecidablePred p] (h : table.all (fun e ↦ (part e.1).all fun c ↦ decide (p c)) = true) :
    ∀ e ∈ table, ∀ c ∈ part e.1, p c := by
  intro e he c hc
  have hall := List.all_eq_true.mp h e he
  exact of_decide_eq_true (List.all_eq_true.mp hall c hc)

/-! ### Characters -/

/-- The spaces that `noc_lex` skips. -/
def isSpace (c : Byte) : Bool := c = chr ' ' ∨ c = chr '\t' ∨ c = chr '\r' ∨ c = chr '\n'

/-- The rest of a line: `c && c != '\n'` -/
def inLine (c : Byte) : Bool := c ≠ 0 ∧ c ≠ chr '\n'

/-- `c >= '0' && c <= '9'` -/
def isDigit (c : Byte) : Bool := chr '0' ≤ c ∧ c ≤ chr '9'

/-- `is_ident_start` -/
def isIdentStart (c : Byte) : Bool :=
  (chr 'a' ≤ c ∧ c ≤ chr 'z') ∨ (chr 'A' ≤ c ∧ c ≤ chr 'Z') ∨ c = chr '_'

/-- `is_ident_char` -/
def isIdentChar (c : Byte) : Bool := isIdentStart c ∨ isDigit c

/-- The digits of a number. -/
def isDigitOf (hex : Bool) (c : Byte) : Bool :=
  isDigit c ∨ hex = true ∧ ((chr 'a' ≤ c ∧ c ≤ chr 'f') ∨ (chr 'A' ≤ c ∧ c ≤ chr 'F'))

/-- The value of a digit. -/
def digitValue (d : Byte) : U64 :=
  if isDigit d then (d - chr '0').setWidth 64
  else if chr 'a' ≤ d ∧ d ≤ chr 'f' then (d - chr 'a' + 10).setWidth 64
  else (d - chr 'A' + 10).setWidth 64

/-- What `lex_escape` makes of the character behind the backslash. -/
def escaped (c : Byte) : Byte :=
  if c = chr 'n' then chr '\n'
  else if c = chr 't' then chr '\t'
  else if c = chr 'r' then chr '\r'
  else if c = chr '\\' then chr '\\'
  else if c = chr '"' then chr '"'
  else if c = chr '\'' then chr '\''
  else c

end NoOsKernel.Noc
