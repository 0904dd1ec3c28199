import NoOsKernel.Lib.Scan
import NoOsKernel.Noc.Arena
import NoOsKernel.Noc.Token

/-!
# The lexer

`noc_lex` of `kernel/noc/lexer.c`. The lexer is a scanner over the bytes of the source and whatever is
behind them. It reports the index of each byte it inspects, its writes to the buffer of a string (the
buffer is `NULL` when its allocation has failed), and its errors; it asks the arena for memory.
-/

set_option autoImplicit false
set_option relaxedAutoImplicit false

namespace NoOsKernel.Noc

open Lib Kern Scan

/-- The errors of `noc_lex`. -/
inductive LexError where
  | tooManyTokens
  | identifierMemory
  | stringTooLong
  | unexpected (c : Byte)
  | unexpectedNoMemory
  deriving DecidableEq

/-- The text of an error with the character that goes into it. -/
def LexError.text : LexError → String × Option Byte
  | .tooManyTokens => ("too many tokens", none)
  | .identifierMemory => ("out of memory (identifier)", none)
  | .stringTooLong => ("string too long", none)
  | .unexpected c => ("unexpected character '%s'", some c)
  | .unexpectedNoMemory => ("unexpected character", none)

/-- What the lexer does: it inspects a byte of the source, writes to a string, or sets the error. -/
inductive LexEvent where
  | src (i : ℕ)
  | put (null : Bool) (k : ℕ)
  | err (e : LexError)
  deriving DecidableEq

/-- What the lexer allocates. -/
inductive LexRequest where
  | identifier (len : ℕ)
  | string
  | message
  deriving DecidableEq

/-- The size of the buffer of a string. -/
def strSize : ℕ := 256

/-- The sizes of the allocations. -/
def LexRequest.size : LexRequest → ℕ
  | identifier len => len + 1
  | string => strSize
  | message => 48

/-- A part of the lexer. -/
abbrev Lex := Scan LexRequest LexEvent

variable (mem : ℕ → Byte)

/-- `p[k]` -/
def byteAt (k : ℕ) : Lex Byte := do
  let i ← pos
  report (.src (i + k))
  pure (mem (i + k))

/-- `while (test(*p)) p++;` -/
def skipWhile (test : Byte → Bool) : ℕ → Lex Unit
  | 0 => stuck
  | fuel + 1 => do
    let c ← byteAt mem 0
    if test c then do
      advance 1
      skipWhile test fuel
    else pure ()

/-- `p[0] == '/' && p[1] == c` -/
def startsComment (c : Byte) : Lex Bool := do
  let a ← byteAt mem 0
  if a = chr '/' then do
    let b ← byteAt mem 1
    pure (decide (b = c))
  else pure false

/-- `while (*p && !(p[0] == '*' && p[1] == '/')) p++;` -/
def skipBlock : ℕ → Lex Unit
  | 0 => stuck
  | fuel + 1 => do
    let a ← byteAt mem 0
    if a = 0 then pure ()
    else if a = chr '*' then do
      let b ← byteAt mem 1
      if b = chr '/' then pure ()
      else do
        advance 1
        skipBlock fuel
    else do
      advance 1
      skipBlock fuel

/-- The block comment at the cursor. -/
def blockComment (fuel : ℕ) : Lex Unit := do
  advance 2
  skipBlock mem fuel
  let c ← byteAt mem 0
  if c = 0 then pure () else advance 2

/-! ### Tokens -/

/-- The loop over the digits of a number, with the value so far. -/
def lexDigits (hex : Bool) : ℕ → U64 → Lex U64
  | 0, _ => stuck
  | fuel + 1, v => do
    let d ← byteAt mem 0
    if isDigitOf hex d then do
      advance 1
      lexDigits hex fuel (v * (if hex then 16 else 10) + digitValue d)
    else pure v

/-- `c == '0' && (p[1] == 'x' || p[1] == 'X')` -/
def startsHex (c : Byte) : Lex Bool :=
  if c = chr '0' then do
    let x ← byteAt mem 1
    pure (decide (x = chr 'x' ∨ x = chr 'X'))
  else pure false

/-- A number that begins with `c`. -/
def lexNumber (fuel : ℕ) (c : Byte) : Lex Tok := do
  let hex ← startsHex mem c
  advance (if hex then 2 else 0)
  let v ← lexDigits mem hex fuel 0
  pure (.num v)

/-- `memcpy` of `len` bytes of the source from `start` on. -/
def copySource (start : ℕ) : ℕ → Lex Name
  | 0 => pure []
  | len + 1 => do
    report (.src start)
    let rest ← copySource (start + 1) len
    pure (mem start :: rest)

/-- An identifier or a keyword. -/
def lexIdent (fuel : ℕ) : Lex Tok := do
  let start ← pos
  skipWhile mem isIdentChar fuel
  let stop ← pos
  let granted ← request (.identifier (stop - start))
  if granted then do
    let s ← copySource mem start (stop - start)
    pure (keywordType s)
  else failWith (.err .identifierMemory)

/-- `lex_escape`. -/
def lexEscape : Lex Byte := do
  let c ← byteAt mem 0
  advance 1
  pure (escaped c)

/-- The next byte of a string whose text goes on with `c`. -/
def strByte (c : Byte) : Lex Byte := do
  advance 1
  if c = chr '\\' then lexEscape mem else pure c

/-- The loop over the text of a string, with the bytes that are in the buffer. -/
def strLoop (null : Bool) : ℕ → Name → Lex Name
  | 0, _ => stuck
  | fuel + 1, buf => do
    let c ← byteAt mem 0
    if c = 0 ∨ c = chr '"' then pure buf
    else do
      let e ← strByte mem c
      report (.put null buf.length)
      if strSize ≤ buf.length + 1 then failWith (.err .stringTooLong)
      else strLoop null fuel (buf ++ [e])

/-- `if (*p == '"') p++;` -/
def skipQuote : Lex Unit := do
  let c ← byteAt mem 0
  advance (if c = chr '"' then 1 else 0)

/-- A string literal. -/
def lexStr (fuel : ℕ) : Lex Tok := do
  advance 1
  let granted ← request .string
  let s ← strLoop mem (!granted) fuel []
  skipQuote mem
  report (.put (!granted) s.length)
  pure (.str s)

/-- `memcmp(p + k, op, len) == 0` -/
def sameBytes : ℕ → Name → Lex Bool
  | _, [] => pure true
  | k, b :: bs => do
    let c ← byteAt mem k
    if c = b then sameBytes (k + 1) bs else pure false

/-- The error about a character. -/
def lexUnexpected (c : Byte) : Lex Tok := do
  let granted ← request .message
  if granted then failWith (.err (.unexpected c)) else failWith (.err .unexpectedNoMemory)

/-- The loop over the operators. -/
def lexOperator (c : Byte) : List (Name × Tok) → Lex Tok
  | [] => lexUnexpected c
  | (op, t) :: ops => do
    let same ← sameBytes mem 0 op
    if same then do
      advance op.length
      pure t
    else lexOperator c ops

/-- The token that begins with `c`. A number that begins with `0x` begins with a digit. -/
def lexToken (fuel : ℕ) (c : Byte) : Lex Tok :=
  if isDigit c then lexNumber mem fuel c
  else if isIdentStart c then lexIdent mem fuel
  else if c = chr '"' then lexStr mem fuel
  else lexOperator mem c operators

variable (maxtoks : ℕ)

/-- The loop of `noc_lex`, with the tokens so far. -/
def lexLoop : ℕ → List Tok → Lex (List Tok)
  | 0, _ => stuck
  | fuel + 1, toks => do
    skipWhile mem isSpace fuel
    let line ← startsComment mem (chr '/')
    if line then do
      skipWhile mem inLine fuel
      lexLoop fuel toks
    else do
      let block ← startsComment mem (chr '*')
      if block then do
        blockComment mem fuel
        lexLoop fuel toks
      else if maxtoks ≤ toks.length then failWith (.err .tooManyTokens)
      else do
        let c ← byteAt mem 0
        if c = 0 then pure (toks ++ [.eof])
        else do
          let t ← lexToken mem fuel c
          lexLoop fuel (toks ++ [t])

/-- `noc_lex`. -/
def nocLex (fuel : ℕ) : Lex (List Tok) := lexLoop mem maxtoks fuel []

/-- A call of `noc_lex` with an arena. -/
def runLexer (fuel : ℕ) (a : Arena) : Transcript Arena LexRequest LexEvent (End (List Tok) × ℕ) :=
  (nocLex mem maxtoks fuel 0).run (Arena.answer LexRequest.size) a

end NoOsKernel.Noc
