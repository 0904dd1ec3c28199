import NoOsKernel.Kern.FormatLaws
import NoOsKernel.Noc.Lexer

/-!
# What the parts of the lexer take from the source

`At mem N i bs` says that the text `bs` is what is left at the index `i` of a source of `N` bytes. A
part of the lexer that asks for nothing takes its text away from what is left (`Takes`), whatever the
index is; what it takes is told with `takeWhile`, `dropWhile` and prefixes.
-/

set_option autoImplicit false
set_option relaxedAutoImplicit false

namespace NoOsKernel.Noc

open Lib Kern Scan

/-! ### What is left of a source -/

/-- At the index `i` of a source of `N` bytes the text `bs` is left, and there is a NUL behind it. -/
structure At (mem : ℕ → Byte) (N i : ℕ) (bs : List Byte) : Prop where
  text : StringAt mem i bs
  len : i + bs.length = N

/-- An event that inspects no byte behind the NUL at `N`. -/
def InSource (N : ℕ) : LexEvent → Prop
  | .src i => i ≤ N
  | .put _ _ => True
  | .err _ => True

variable {mem : ℕ → Byte} {N i k : ℕ} {xs bs : List Byte} {c : Byte}

theorem At.append (h : At mem N i (xs ++ bs)) : At mem N (i + xs.length) bs := by
  induction xs generalizing i with
  | nil => exact h
  | cons c xs ih =>
    obtain ⟨⟨-, -, htext⟩, hlen⟩ := h
    have htail : At mem N (i + 1) (xs ++ bs) := ⟨htext, by
      rw [← hlen, List.cons_append, List.length_cons]
      omega⟩
    rw [List.length_cons, Nat.add_comm xs.length 1, ← Nat.add_assoc]
    exact ih htail

theorem At.tail (h : At mem N i (c :: bs)) : At mem N (i + 1) bs := by
  have happ : At mem N i ([c] ++ bs) := h
  exact happ.append

theorem At.head (h : At mem N i bs) : mem i = bs.headD 0 := by
  cases bs with
  | nil => exact h.text
  | cons c bs => exact h.text.2.1

theorem At.ne_zero (h : At mem N i bs) : ∀ c ∈ bs, c ≠ 0 := by
  induction bs generalizing i with
  | nil => exact List.forall_mem_nil _
  | cons c bs ih => exact List.forall_mem_cons.mpr ⟨h.text.1, ih h.tail⟩

theorem At.drop (h : At mem N i bs) (hk : k ≤ bs.length) : At mem N (i + k) (bs.drop k) := by
  have happ : At mem N i (bs.take k ++ bs.drop k) := by rwa [List.take_append_drop]
  have hdrop := happ.append
  rwa [List.length_take_of_le hk] at hdrop

/-! ### Parts that ask for nothing -/

variable {α β : Type} {p : Lex α} {f : α → Lex β} {a : α} {b : β} {rest rest' : List Byte}

/-- Where `bs` is left a part of the lexer has the value `a` and leaves `rest`. -/
def Takes (mem : ℕ → Byte) (N : ℕ) (p : Lex α) (bs : List Byte) (a : α) (rest : List Byte) : Prop :=
  ∀ i, At mem N i bs → ∃ j, Does (InSource N) p i a j ∧ At mem N j rest

theorem Takes.bind (hp : Takes mem N p bs a rest) (hf : Takes mem N (f a) rest b rest') :
    Takes mem N (p >>= f) bs b rest' := by
  intro i h
  obtain ⟨j, hdoes, h⟩ := hp i h
  obtain ⟨k, hdoes', h⟩ := hf j h
  exact ⟨k, hdoes.bind hdoes', h⟩

/-- A text that is left holds no NUL. -/
theorem Takes.of_ne_zero (h : (∀ c ∈ bs, c ≠ 0) → Takes mem N p bs a rest) :
    Takes mem N p bs a rest :=
  fun i hat ↦ h hat.ne_zero i hat

theorem takes_pure (a : α) (bs : List Byte) : Takes mem N (pure a : Lex α) bs a bs :=
  fun i h ↦ ⟨i, does_pure _ a i, h⟩

theorem takes_advance (xs bs : List Byte) :
    Takes mem N (advance xs.length : Lex Unit) (xs ++ bs) () bs :=
  fun i h ↦ ⟨i + xs.length, does_advance _ _ i, h.append⟩

theorem byteAt_does (h : At mem N i bs) (hk : k ≤ bs.length) :
    Does (InSource N) (byteAt mem k) i ((bs.drop k).headD 0) i := by
  have hin : InSource N (.src (i + k)) := by
    have hlen := h.len
    change i + k ≤ N
    omega
  rw [← (h.drop hk).head]
  exact (does_pos _ i).bind ((does_report hin i).bind (does_pure _ _ i))

theorem takes_byte (bs : List Byte) : Takes mem N (byteAt mem 0) bs (bs.headD 0) bs :=
  fun i h ↦ ⟨i, byteAt_does h (Nat.zero_le _), h⟩

theorem takes_second (c : Byte) (bs : List Byte) :
    Takes mem N (byteAt mem 1) (c :: bs) (bs.headD 0) (c :: bs) :=
  fun i h ↦ ⟨i, byteAt_does h (Nat.succ_le_succ (Nat.zero_le _)), h⟩

/-! ### Spaces and comments -/

variable {fuel : ℕ}

theorem skipWhile_takes {test : Byte → Bool} (hnul : test 0 = false) (hfuel : bs.length < fuel) :
    Takes mem N (skipWhile mem test fuel) bs () (bs.dropWhile test) := by
  induction bs generalizing fuel with
  | nil =>
    obtain ⟨fuel, rfl⟩ := Nat.exists_eq_add_of_lt hfuel
    refine (takes_byte []).bind ?_
    rw [List.headD_nil, hnul]
    exact takes_pure () []
  | cons c bs ih =>
    obtain ⟨fuel, rfl⟩ : ∃ fuel', fuel = fuel' + 1 := ⟨fuel - 1, by omega⟩
    refine (takes_byte (c :: bs)).bind ?_
    rw [List.headD_cons, List.dropWhile_cons]
    split_ifs with hc
    · exact (takes_advance [c] bs).bind (ih (Nat.lt_of_succ_lt_succ hfuel))
    · exact takes_pure () (c :: bs)

/-- The text begins with a `/` and `c`. -/
def Opens (c : Byte) (bs : List Byte) : Prop := bs.headD 0 = chr '/' ∧ bs.tail.headD 0 = c

instance (c : Byte) (bs : List Byte) : Decidable (Opens c bs) := inferInstanceAs (Decidable (_ ∧ _))

theorem Opens.exists_cons (hc : c ≠ 0) (h : Opens c bs) : ∃ rest, bs = chr '/' :: c :: rest := by
  obtain ⟨hslash, hnext⟩ := h
  cases bs with
  | nil => exact absurd hslash (by decide)
  | cons a bs =>
    cases bs with
    | nil => exact absurd hnext.symm hc
    | cons b bs => exact ⟨bs, by rw [← hslash, ← hnext]; rfl⟩

theorem startsComment_takes (c : Byte) (bs : List Byte) :
    Takes mem N (startsComment mem c) bs (decide (Opens c bs)) bs := by
  refine (takes_byte bs).bind ?_
  split_ifs with hslash
  · cases bs with
    | nil => exact absurd hslash (by decide)
    | cons a bs =>
      refine (takes_second a bs).bind ?_
      have hopens : Opens c (a :: bs) ↔ bs.headD 0 = c := and_iff_right hslash
      rw [decide_eq_decide.mpr hopens]
      exact takes_pure _ _
  · rw [decide_eq_false fun hopens ↦ hslash hopens.1]
    exact takes_pure _ _

/-- What is left from the end of a block comment on. -/
def atBlockEnd : List Byte → List Byte
  | [] => []
  | c :: bs => if c = chr '*' ∧ bs.headD 0 = chr '/' then c :: bs else atBlockEnd bs

theorem skipBlock_takes (hfuel : bs.length < fuel) :
    Takes mem N (skipBlock mem fuel) bs () (atBlockEnd bs) := by
  refine .of_ne_zero fun hne ↦ ?_
  induction bs generalizing fuel with
  | nil =>
    obtain ⟨fuel, rfl⟩ := Nat.exists_eq_add_of_lt hfuel
    exact (takes_byte []).bind (takes_pure () [])
  | cons c bs ih =>
    obtain ⟨fuel, rfl⟩ : ∃ fuel', fuel = fuel' + 1 := ⟨fuel - 1, by omega⟩
    obtain ⟨hc, hne⟩ := List.forall_mem_cons.mp hne
    have hnext : Takes mem N (do advance 1; skipBlock mem fuel) (c :: bs) () (atBlockEnd bs) :=
      (takes_advance [c] bs).bind (ih (Nat.lt_of_succ_lt_succ hfuel) hne)
    refine (takes_byte (c :: bs)).bind ?_
    rw [List.headD_cons, if_neg hc, atBlockEnd]
    by_cases hstar : c = chr '*'
    · rw [if_pos hstar]
      refine (takes_second c bs).bind ?_
      by_cases hslash : bs.headD 0 = chr '/'
      · rw [if_pos hslash, if_pos ⟨hstar, hslash⟩]
        exact takes_pure () (c :: bs)
      · rw [if_neg hslash, if_neg fun hend ↦ hslash hend.2]
        exact hnext
    · rw [if_neg hstar, if_neg fun hend ↦ hstar hend.1]
      exact hnext

theorem atBlockEnd_cases (bs : List Byte) :
    atBlockEnd bs = [] ∨ ∃ rest, atBlockEnd bs = chr '*' :: chr '/' :: rest := by
  induction bs with
  | nil => exact Or.inl rfl
  | cons c bs ih =>
    rw [atBlockEnd]
    split_ifs with hend
    · obtain ⟨hstar, hslash⟩ := hend
      cases bs with
      | nil => exact absurd hslash (by decide)
      | cons d bs => exact Or.inr ⟨bs, by rw [hstar, ← hslash]; rfl⟩
    · exact ih

theorem length_atBlockEnd (bs : List Byte) : (atBlockEnd bs).length ≤ bs.length := by
  induction bs with
  | nil => exact le_rfl
  | cons c bs ih =>
    rw [atBlockEnd]
    split_ifs
    · exact le_rfl
    · exact Nat.le_succ_of_le ih

/-- The comment that a `/` and a `*` open. -/
theorem blockComment_takes {d : Byte} (hfuel : bs.length < fuel) :
    Takes mem N (blockComment mem fuel) (c :: d :: bs) () ((atBlockEnd bs).drop 2) := by
  refine (takes_advance [c, d] bs).bind ((skipBlock_takes hfuel).bind ?_)
  refine (takes_byte (atBlockEnd bs)).bind ?_
  rcases atBlockEnd_cases bs with hend | ⟨rest, hend⟩
  · rw [hend]
    exact takes_pure () []
  · rw [hend, List.headD_cons, if_neg (by decide)]
    exact takes_advance [chr '*', chr '/'] rest

/-! ### Numbers -/

/-- A digit at the end of a number. -/
def withDigit (hex : Bool) (v : U64) (d : Byte) : U64 :=
  v * (if hex then 16 else 10) + digitValue d

theorem isDigitOf_zero (hex : Bool) : isDigitOf hex 0 = false := by
  cases hex <;> decide

theorem lexDigits_takes (hex : Bool) (v : U64) (hfuel : bs.length < fuel) :
    Takes mem N (lexDigits mem hex fuel v) bs ((bs.takeWhile (isDigitOf hex)).foldl (withDigit hex) v)
      (bs.dropWhile (isDigitOf hex)) := by
  induction bs generalizing fuel v with
  | nil =>
    obtain ⟨fuel, rfl⟩ := Nat.exists_eq_add_of_lt hfuel
    refine (takes_byte []).bind ?_
    rw [List.headD_nil, isDigitOf_zero]
    exact takes_pure v []
  | cons c bs ih =>
    obtain ⟨fuel, rfl⟩ : ∃ fuel', fuel = fuel' + 1 := ⟨fuel - 1, by omega⟩
    refine (takes_byte (c :: bs)).bind ?_
    rw [List.headD_cons, List.dropWhile_cons, List.takeWhile_cons]
    by_cases hc : isDigitOf hex c = true
    · rw [if_pos hc, if_pos hc, if_pos hc]
      exact (takes_advance [c] bs).bind (ih (withDigit hex v c) (Nat.lt_of_succ_lt_succ hfuel))
    · rw [if_neg hc, if_neg hc, if_neg hc]
      exact takes_pure v (c :: bs)

/-- The text begins with `0x`. -/
def StartsHex (bs : List Byte) : Prop :=
  bs.headD 0 = chr '0' ∧ (bs.tail.headD 0 = chr 'x' ∨ bs.tail.headD 0 = chr 'X')

instance (bs : List Byte) : Decidable (StartsHex bs) := inferInstanceAs (Decidable (_ ∧ _))

theorem startsHex_takes (c : Byte) (bs : List Byte) :
    Takes mem N (startsHex mem c) (c :: bs) (decide (StartsHex (c :: bs))) (c :: bs) := by
  unfold startsHex
  split_ifs with hzero
  · refine (takes_second c bs).bind ?_
    have hhex : StartsHex (c :: bs) ↔ bs.headD 0 = chr 'x' ∨ bs.headD 0 = chr 'X' :=
      and_iff_right hzero
    rw [decide_eq_decide.mpr hhex]
    exact takes_pure _ _
  · rw [decide_eq_false fun hhex ↦ hzero hhex.1]
    exact takes_pure _ _

theorem lexNumber_takes_hex {x : Byte} (hx : x = chr 'x' ∨ x = chr 'X') (hfuel : bs.length < fuel) :
    Takes mem N (lexNumber mem fuel (chr '0')) (chr '0' :: x :: bs)
      (.num ((bs.takeWhile (isDigitOf true)).foldl (withDigit true) 0))
      (bs.dropWhile (isDigitOf true)) := by
  have hhex : StartsHex (chr '0' :: x :: bs) := ⟨rfl, hx⟩
  refine (startsHex_takes (chr '0') (x :: bs)).bind ?_
  rw [decide_eq_true hhex]
  exact (takes_advance [chr '0', x] bs).bind
    ((lexDigits_takes true 0 hfuel).bind (takes_pure _ _))

theorem lexNumber_takes_dec (hdec : ¬ StartsHex (c :: bs)) (hfuel : (c :: bs).length < fuel) :
    Takes mem N (lexNumber mem fuel c) (c :: bs)
      (.num (((c :: bs).takeWhile (isDigitOf false)).foldl (withDigit false) 0))
      ((c :: bs).dropWhile (isDigitOf false)) := by
  refine (startsHex_takes c bs).bind ?_
  rw [decide_eq_false hdec]
  exact (takes_advance [] (c :: bs)).bind ((lexDigits_takes false 0 hfuel).bind (takes_pure _ _))

theorem isIdentChar_digit {hex : Bool} {c : Byte} (hc : isDigitOf hex c = true) :
    isIdentChar c = true := by
  refine decide_eq_true ?_
  rcases of_decide_eq_true hc with hdigit | ⟨-, ⟨hlow, hhigh⟩ | ⟨hlow, hhigh⟩⟩
  · exact Or.inr hdigit
  · exact Or.inl (decide_eq_true (Or.inl ⟨hlow, BitVec.le_trans hhigh (by decide : chr 'f' ≤ chr 'z')⟩))
  · exact Or.inl (decide_eq_true (Or.inr (Or.inl ⟨hlow, BitVec.le_trans hhigh (by decide : chr 'F' ≤ chr 'Z')⟩)))

/-! ### Operators -/

theorem operators_ne_zero : ∀ e ∈ operators, ∀ b ∈ e.1, b ≠ 0 := forall_table id (by decide)

/-- A comparison with an operator stops at the first difference. -/
theorem sameBytes_does {op : Name} (hop : ∀ b ∈ op, b ≠ 0) (h : At mem N i bs) (hk : k ≤ bs.length) :
    Does (InSource N) (sameBytes mem k op) i (decide (op <+: bs.drop k)) i := by
  induction op generalizing k with
  | nil =>
    rw [decide_eq_true List.nil_prefix]
    exact does_pure _ _ i
  | cons b op ih =>
    obtain ⟨hb, hop⟩ := List.forall_mem_cons.mp hop
    refine (byteAt_does h hk).bind ?_
    by_cases hlt : k < bs.length
    · rw [List.drop_eq_getElem_cons hlt, List.headD_cons]
      by_cases hsame : bs[k] = b
      · have hprefix : b :: op <+: bs[k] :: bs.drop (k + 1) ↔ op <+: bs.drop (k + 1) := by
          rw [List.cons_prefix_cons, and_iff_right hsame.symm]
        rw [if_pos hsame, decide_eq_decide.mpr hprefix]
        exact ih hop hlt
      · have hprefix : ¬ b :: op <+: bs[k] :: bs.drop (k + 1) := fun hprefix ↦
          hsame (List.cons_prefix_cons.mp hprefix).1.symm
        rw [if_neg hsame, decide_eq_false hprefix]
        exact does_pure _ _ i
    · have hprefix : ¬ b :: op <+: [] := fun hprefix ↦
        List.cons_ne_nil b op (List.prefix_nil.mp hprefix)
      rw [List.drop_eq_nil_of_le (Nat.le_of_not_lt hlt), List.headD_nil, if_neg (Ne.symm hb),
        decide_eq_false hprefix]
      exact does_pure _ _ i

theorem sameBytes_takes {op : Name} (hop : ∀ b ∈ op, b ≠ 0) (bs : List Byte) :
    Takes mem N (sameBytes mem 0 op) bs (decide (op <+: bs)) bs :=
  fun i h ↦ ⟨i, sameBytes_does hop h (Nat.zero_le _), h⟩

/-- The first operator in a table that the text begins with. -/
theorem lexOperator_takes {ops : List (Name × Tok)} {op : Name} {t : Tok}
    (hops : ∀ e ∈ ops, ∀ b ∈ e.1, b ≠ 0) (hfind : ops.find? (·.1 <+: op ++ bs) = some (op, t)) :
    Takes mem N (lexOperator mem c ops) (op ++ bs) t bs := by
  induction ops with
  | nil => cases hfind
  | cons e ops ih =>
    obtain ⟨he, hops⟩ := List.forall_mem_cons.mp hops
    refine (sameBytes_takes he (op ++ bs)).bind ?_
    rw [List.find?_cons] at hfind
    by_cases hprefix : e.1 <+: op ++ bs
    · rw [decide_eq_true hprefix] at hfind ⊢
      obtain rfl : e = (op, t) := Option.some.inj hfind
      exact (takes_advance op bs).bind (takes_pure t bs)
    · rw [decide_eq_false hprefix] at hfind ⊢
      exact ih hops hfind

/-- A text that begins with no operator of a table. -/
theorem lexOperator_none {ops : List (Name × Tok)} (hops : ∀ e ∈ ops, ∀ b ∈ e.1, b ≠ 0)
    (hfind : ops.find? (·.1 <+: bs) = none) (h : At mem N i bs) :
    Comes (InSource N) (lexOperator mem c ops) i (lexUnexpected c) i := by
  induction ops with
  | nil => exact .refl _ _ i
  | cons e ops ih =>
    obtain ⟨he, hops⟩ := List.forall_mem_cons.mp hops
    rw [List.find?_cons] at hfind
    by_cases hprefix : e.1 <+: bs
    · rw [decide_eq_true hprefix] at hfind
      cases hfind
    · rw [decide_eq_false hprefix] at hfind
      have hsame := sameBytes_does he h (Nat.zero_le _)
      rw [List.drop_zero, decide_eq_false hprefix] at hsame
      exact hsame.comes.trans (ih hops hfind)

/-! ### Identifiers -/

theorem copySource_does (h : At mem N i (xs ++ bs)) (j : ℕ) :
    Does (InSource N) (copySource mem i xs.length) j xs j := by
  induction xs generalizing i with
  | nil => exact does_pure _ [] j
  | cons c xs ih =>
    have hin : InSource N (.src i) := by
      have hlen := h.len
      change i ≤ N
      omega
    have hbyte : mem i = c := h.head
    refine (does_report hin j).bind ((ih h.tail).bind ?_)
    rw [hbyte]
    exact does_pure _ _ j

theorem isIdentChar_zero : isIdentChar 0 = false := by decide

/-- The part of an identifier in front of the request for its copy. -/
theorem skipIdent_does (h : At mem N i bs) (hfuel : bs.length < fuel) :
    ∃ j, Does (InSource N) (skipWhile mem isIdentChar fuel) i () j ∧
      At mem N j (bs.dropWhile isIdentChar) ∧ j - i = (bs.takeWhile isIdentChar).length := by
  obtain ⟨j, hskip, hj⟩ := skipWhile_takes isIdentChar_zero hfuel i h
  refine ⟨j, hskip, hj, ?_⟩
  have hi := h.len
  have hend := hj.len
  have hlength := congrArg List.length (bs.takeWhile_append_dropWhile (p := isIdentChar))
  rw [List.length_append] at hlength
  omega

theorem copyIdent_does (h : At mem N i bs) (j : ℕ) :
    Does (InSource N) (copySource mem i (bs.takeWhile isIdentChar).length) j
      (bs.takeWhile isIdentChar) j := by
  rw [← bs.takeWhile_append_dropWhile (p := isIdentChar)] at h
  exact copySource_does h j

theorem lexIdent_reads (size : LexRequest → ℕ) (h : At mem N i bs) (hfuel : bs.length < fuel) :
    ∃ j, At mem N j (bs.dropWhile isIdentChar) ∧
      Reads size (lexIdent mem fuel) i (keywordType (bs.takeWhile isIdentChar)) j
        (size (.identifier (bs.takeWhile isIdentChar).length)) := by
  obtain ⟨j, hskip, hj, hlen⟩ := skipIdent_does h hfuel
  have hcopy : Does (InSource N) (do
      let s ← copySource mem i (bs.takeWhile isIdentChar).length
      pure (keywordType s)) j (keywordType (bs.takeWhile isIdentChar)) j :=
    (copyIdent_does h j).bind (does_pure _ _ j)
  refine ⟨j, hj, (does_pos (InSource N) i).reads_bind
    (hskip.reads_bind ((does_pos (InSource N) j).reads_bind ?_))⟩
  rw [hlen, ← Nat.add_zero (size _)]
  exact reads_bind (reads_request _ j) hcopy.reads

theorem lexIdent_ensures (h : At mem N i bs) (hfuel : bs.length < fuel) :
    Ensures (InSource N) (lexIdent mem fuel) i (Post
      (fun t j ↦ t = keywordType (bs.takeWhile isIdentChar) ∧ At mem N j (bs.dropWhile isIdentChar))
      fun _ ↦ True) := by
  obtain ⟨j, hskip, hj, hlen⟩ := skipIdent_does h hfuel
  refine (does_pos _ i).ensures (hskip.ensures ((does_pos _ j).ensures ?_))
  rw [hlen]
  intro granted
  cases granted with
  | true =>
    exact (copyIdent_does h j).ensures ⟨rfl, hj⟩
  | false => exact ⟨trivial, trivial⟩

/-! ### Strings -/

/-- A byte of a string, its text in the source, and what is behind. -/
inductive TextByte : List Byte → Byte → List Byte → Prop
  | plain {c : Byte} {bs : List Byte} (hquote : c ≠ chr '"') (hslash : c ≠ chr '\\') :
    TextByte (c :: bs) c bs
  | escape (d : Byte) (bs : List Byte) : TextByte (chr '\\' :: d :: bs) (escaped d) bs

theorem text_cases (bs : List Byte) :
    bs = [] ∨ (∃ rest, bs = chr '"' :: rest) ∨ bs = [chr '\\'] ∨ ∃ e rest, TextByte bs e rest := by
  cases bs with
  | nil => exact Or.inl rfl
  | cons c bs =>
    by_cases hquote : c = chr '"'
    · exact Or.inr (Or.inl ⟨bs, by rw [hquote]⟩)
    · by_cases hslash : c = chr '\\'
      · subst hslash
        cases bs with
        | nil => exact Or.inr (Or.inr (Or.inl rfl))
        | cons d bs => exact Or.inr (Or.inr (Or.inr ⟨_, bs, .escape d bs⟩))
      · exact Or.inr (Or.inr (Or.inr ⟨c, bs, .plain hquote hslash⟩))

variable {e : Byte}

theorem TextByte.length_lt (h : TextByte bs e rest) : rest.length < bs.length := by
  cases h with
  | plain => exact Nat.lt_succ_self _
  | escape => exact (Nat.lt_succ_self _).trans (Nat.lt_succ_self _)

/-- The step of the loop over a string: the buffer is full, or the loop goes on. -/
def strMore (mem : ℕ → Byte) (null : Bool) (fuel : ℕ) (buf : Name) (e : Byte) : Lex Name :=
  if strSize ≤ buf.length + 1 then failWith (.err .stringTooLong)
  else strLoop mem null fuel (buf ++ [e])

theorem strLoop_comes {j : ℕ} (null : Bool) (fuel : ℕ) (buf : Name) (h : At mem N i (c :: bs))
    (hquote : c ≠ chr '"') (hbyte : Does (InSource N) (strByte mem c) i e j) :
    Comes (InSource N) (strLoop mem null (fuel + 1) buf) i (strMore mem null fuel buf e) j := by
  have hc := h.text.1
  have hgo : ¬ (c = 0 ∨ c = chr '"') := fun hend ↦ hend.elim hc hquote
  have hput : Does (InSource N) (report (.put null buf.length) : Lex Unit) j () j := does_report trivial j
  refine (byteAt_does h (Nat.zero_le _)).comes.trans ?_
  rw [List.drop_zero, List.headD_cons, if_neg hgo]
  exact hbyte.comes.trans hput.comes

theorem TextByte.strLoop (null : Bool) (fuel : ℕ) (buf : Name) (h : TextByte bs e rest)
    (hat : At mem N i bs) :
    ∃ j, At mem N j rest ∧
      Comes (InSource N) (strLoop mem null (fuel + 1) buf) i (strMore mem null fuel buf e) j := by
  cases h with
  | plain hquote hslash =>
    have htakes : Takes mem N (strByte mem e) (e :: rest) e rest := by
      refine (takes_advance [e] rest).bind ?_
      rw [if_neg hslash]
      exact takes_pure e rest
    obtain ⟨j, hdoes, hj⟩ := htakes i hat
    exact ⟨j, hj, strLoop_comes null fuel buf hat hquote hdoes⟩
  | escape d bs =>
    have htakes : Takes mem N (strByte mem (chr '\\')) (chr '\\' :: d :: rest) (escaped d) rest :=
      (takes_advance [chr '\\'] (d :: rest)).bind ((takes_byte (d :: rest)).bind
        ((takes_advance [d] rest).bind (takes_pure (escaped d) rest)))
    obtain ⟨j, hdoes, hj⟩ := htakes i hat
    exact ⟨j, hj, strLoop_comes null fuel buf hat (by decide) hdoes⟩

theorem strLoop_end {null : Bool} {buf : Name} (h : At mem N i []) :
    Does (InSource N) (strLoop mem null (fuel + 1) buf) i buf i :=
  (byteAt_does h (Nat.zero_le _)).bind (does_pure _ buf i)

theorem strLoop_quote {null : Bool} {buf : Name} (h : At mem N i (chr '"' :: bs)) :
    Does (InSource N) (strLoop mem null (fuel + 1) buf) i buf i :=
  (byteAt_does h (Nat.zero_le _)).bind (does_pure _ buf i)

/-- `lex_escape` at the end of the source consumes the NUL. -/
theorem strLoop_escape_end (null : Bool) (fuel : ℕ) (buf : Name) (h : At mem N i [chr '\\']) :
    Comes (InSource N) (strLoop mem null (fuel + 1) buf) i (strMore mem null fuel buf (escaped 0))
      (N + 1) := by
  have hlen : i + 1 = N := h.len
  have hbyte : Does (InSource N) (strByte mem (chr '\\')) i (escaped 0) (i + 1 + 1) :=
    (does_advance _ 1 i).bind ((byteAt_does h.tail (Nat.zero_le _)).bind
      ((does_advance _ 1 (i + 1)).bind (does_pure _ _ _)))
  rw [hlen] at hbyte
  exact strLoop_comes null fuel buf h (by decide) hbyte

theorem skipQuote_takes (bs : List Byte) : Takes mem N (skipQuote mem) (chr '"' :: bs) () bs :=
  (takes_byte (chr '"' :: bs)).bind (takes_advance [chr '"'] bs)

theorem skipQuote_end : Takes mem N (skipQuote mem) [] () [] :=
  (takes_byte []).bind (takes_advance [] [])

/-! ### The loop -/

theorem isSpace_zero : isSpace 0 = false := by decide

theorem inLine_zero : inLine 0 = false := by decide

theorem lexLoop_line (maxtoks : ℕ) (toks : List Tok) (h : At mem N i bs) (hfuel : bs.length < fuel)
    (hopens : Opens (chr '/') (bs.dropWhile isSpace)) :
    ∃ j, At mem N j ((bs.dropWhile isSpace).dropWhile inLine) ∧
      Comes (InSource N) (lexLoop mem maxtoks (fuel + 1) toks) i (lexLoop mem maxtoks fuel toks) j := by
  have hle := (bs.dropWhile_sublist isSpace).length_le
  obtain ⟨j₁, hspace, h₁⟩ := skipWhile_takes isSpace_zero hfuel i h
  obtain ⟨j₂, hstart, h₂⟩ := startsComment_takes (chr '/') _ j₁ h₁
  rw [decide_eq_true hopens] at hstart
  obtain ⟨j₃, hline, h₃⟩ := skipWhile_takes inLine_zero (hle.trans_lt hfuel) j₂ h₂
  exact ⟨j₃, h₃, hspace.comes.trans (hstart.comes.trans hline.comes)⟩

theorem lexLoop_block (maxtoks : ℕ) (toks : List Tok) {d : Byte} {rest : List Byte}
    (h : At mem N i bs) (hfuel : bs.length < fuel)
    (hrest : bs.dropWhile isSpace = c :: d :: rest) (hline : ¬ Opens (chr '/') (c :: d :: rest))
    (hopens : Opens (chr '*') (c :: d :: rest)) :
    ∃ j, At mem N j ((atBlockEnd rest).drop 2) ∧
      Comes (InSource N) (lexLoop mem maxtoks (fuel + 1) toks) i (lexLoop mem maxtoks fuel toks) j := by
  have hle := (bs.dropWhile_sublist isSpace).length_le
  rw [hrest, List.length_cons, List.length_cons] at hle
  obtain ⟨j₁, hspace, h₁⟩ := skipWhile_takes isSpace_zero hfuel i h
  rw [hrest] at h₁
  obtain ⟨j₂, hstart, h₂⟩ := startsComment_takes (chr '/') _ j₁ h₁
  rw [decide_eq_false hline] at hstart
  obtain ⟨j₃, hstart', h₃⟩ := startsComment_takes (chr '*') _ j₂ h₂
  rw [decide_eq_true hopens] at hstart'
  obtain ⟨j₄, hblock, h₄⟩ := blockComment_takes (by omega : rest.length < fuel) j₃ h₃
  exact ⟨j₄, h₄, hspace.comes.trans (hstart.comes.trans (hstart'.comes.trans hblock.comes))⟩

variable {maxtoks : ℕ} {toks : List Tok}

/-- What the loop does where no comment begins. -/
def lexHead (mem : ℕ → Byte) (maxtoks fuel : ℕ) (toks : List Tok) : Lex (List Tok) :=
  if maxtoks ≤ toks.length then failWith (.err .tooManyTokens)
  else do
    let c ← byteAt mem 0
    if c = 0 then pure (toks ++ [.eof])
    else do
      let t ← lexToken mem fuel c
      lexLoop mem maxtoks fuel (toks ++ [t])

theorem lexLoop_head (maxtoks : ℕ) (toks : List Tok) (h : At mem N i bs) (hfuel : bs.length < fuel)
    (hline : ¬ Opens (chr '/') (bs.dropWhile isSpace))
    (hblock : ¬ Opens (chr '*') (bs.dropWhile isSpace)) :
    ∃ j, At mem N j (bs.dropWhile isSpace) ∧
      Comes (InSource N) (lexLoop mem maxtoks (fuel + 1) toks) i (lexHead mem maxtoks fuel toks) j := by
  obtain ⟨j₁, hspace, h₁⟩ := skipWhile_takes isSpace_zero hfuel i h
  obtain ⟨j₂, hstart, h₂⟩ := startsComment_takes (chr '/') _ j₁ h₁
  rw [decide_eq_false hline] at hstart
  obtain ⟨j₃, hstart', h₃⟩ := startsComment_takes (chr '*') _ j₂ h₂
  rw [decide_eq_false hblock] at hstart'
  exact ⟨j₃, h₃, hspace.comes.trans (hstart.comes.trans hstart'.comes)⟩

theorem lexHead_end (h : At mem N i []) (hroom : toks.length < maxtoks) :
    Does (InSource N) (lexHead mem maxtoks fuel toks) i (toks ++ [.eof]) i := by
  rw [lexHead, if_neg (Nat.not_le_of_lt hroom)]
  exact (byteAt_does h (Nat.zero_le _)).bind (does_pure _ _ i)

theorem lexHead_token (h : At mem N i (c :: bs)) (hroom : toks.length < maxtoks) :
    Comes (InSource N) (lexHead mem maxtoks fuel toks) i (do
      let t ← lexToken mem fuel c
      lexLoop mem maxtoks fuel (toks ++ [t])) i := by
  have hbyte := byteAt_does h (Nat.zero_le _)
  rw [lexHead, if_neg (Nat.not_le_of_lt hroom)]
  refine hbyte.comes.trans ?_
  rw [List.drop_zero, List.headD_cons, if_neg h.text.1]
  exact .refl _ _ i

end NoOsKernel.Noc
