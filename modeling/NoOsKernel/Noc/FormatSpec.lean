import Mathlib
import NoOsKernel.Kern.FormatLaws
import NoOsKernel.Noc.Format

/-!
# What `noc_format` prints

A format is a sequence of plain characters and conversions, and perhaps a conversion that its end
cuts off (`splitFormat`). `render` is the unbounded formatting of such a sequence. `noc_format`
leaves as much of it as the buffer holds. It stays inside the format unless it comes to a conversion
that is cut off with an argument and room left: then it reads on behind the terminator.
-/

set_option autoImplicit false
set_option relaxedAutoImplicit false

namespace NoOsKernel.Noc

open Lib Kern

/-! ### Formats -/

/-- A part of a format: a character that stands for itself, or a conversion. -/
inductive Piece where
  | plain (c : Byte)
  | conv (c : Byte)

/-- The parts of a format, and how many `l` stand behind a last `%` that has no conversion
character. The first argument says the same of what comes before. -/
def splitFrom : Option ℕ → List Byte → List Piece × Option ℕ
  | open?, [] => ([], open?)
  | none, c :: bs =>
    if c = chr '%' then splitFrom (some 0) bs
    else (.plain c :: (splitFrom none bs).1, (splitFrom none bs).2)
  | some l, c :: bs =>
    if c = chr 'l' ∧ l < 2 then splitFrom (some (l + 1)) bs
    else (.conv c :: (splitFrom none bs).1, (splitFrom none bs).2)

/-- The parts of a format. -/
def splitFormat (bs : List Byte) : List Piece × Option ℕ := splitFrom none bs

/-- Each `%` of the format, with its length modifiers, is followed by a conversion character. -/
def Complete (bs : List Byte) : Prop := (splitFormat bs).2 = none

instance (bs : List Byte) : Decidable (Complete bs) := inferInstanceAs (Decidable (_ = _))

/-- The conversions that take an argument. -/
def takesArg (c : Byte) : Bool := decide (c ∈ "csduxXp".toList.map chr)

/-- The text of an argument. `str` gives the strings. -/
def convText (str : BitVec 64 → List Byte) (c : Byte) (v : BitVec 64) : List Byte :=
  if c = chr 'c' then [v.setWidth 8]
  else if c = chr 's' then (if v = 0 then nullText else str v)
  else if c = chr 'd' then signedText v.toInt
  else if c = chr 'u' then digitText 10 false v.toNat
  else if c = chr 'x' then digitText 16 false v.toNat
  else if c = chr 'X' then digitText 16 true v.toNat
  else chr '0' :: chr 'x' :: digitText 16 false v.toNat

variable (str : BitVec 64 → List Byte) (args : ℕ → BitVec 64) (n : ℕ)

/-- The unbounded formatting, from argument `a` on. It stops at the first conversion other than `%%`
that finds no argument left; an unknown conversion is copied and takes none. -/
def render : ℕ → List Piece → List Byte
  | _, [] => []
  | a, .plain c :: ps => c :: render a ps
  | a, .conv c :: ps =>
    if c = chr '%' then chr '%' :: render a ps
    else if n ≤ a then []
    else if takesArg c then convText str c (args a) ++ render (a + 1) ps
    else chr '%' :: c :: render a ps

/-- The arguments that are formatted as strings. -/
def stringArgs : ℕ → List Piece → List (BitVec 64)
  | _, [] => []
  | a, .plain _ :: ps => stringArgs a ps
  | a, .conv c :: ps =>
    if c = chr '%' then stringArgs a ps
    else if n ≤ a then []
    else if takesArg c then
      if c = chr 's' ∧ args a ≠ 0 then args a :: stringArgs (a + 1) ps else stringArgs (a + 1) ps
    else stringArgs a ps

/-- How many arguments the conversions take. -/
def argsTaken : List Piece → ℕ
  | [] => 0
  | .plain _ :: ps => argsTaken ps
  | .conv c :: ps => argsTaken ps + if takesArg c then 1 else 0

/-! ### One conversion -/

variable {str args n} {cap fuel : ℕ} {fmt : ℕ → Byte} {mem : BitVec 64 → Byte} {c : Byte}
  {s s' : Formatter} {t bs : List Byte}

theorem roomLeft_iff (w : ℕ) : roomLeft cap w = true ↔ w + 1 < cap := decide_eq_true_iff

/-- What a conversion does to the input: it takes one argument or none. -/
structure Consumes (args : ℕ → BitVec 64) (s s' : Formatter) (takes : Bool) : Prop where
  p : s'.p = s.p
  fmtRead : s'.fmtRead = s.fmtRead
  a : s'.a = s.a + if takes then 1 else 0
  argRead : s'.argRead = if takes then s.a :: s.argRead else s.argRead

/-- A text that is written behind an argument. -/
theorem output_behind_arg (h : Emits cap (s.arg args).2 s' t) :
    Output cap s s' t ∧ Consumes args s s' true :=
  ⟨⟨h.1.text, h.1.written, h.1.outside⟩, h.2.p, h.2.fmtRead, h.2.a, h.2.argRead⟩

/-- `0x` and the digits behind it. -/
theorem pointer_emits (hw : s.w + 1 < cap) (v : BitVec 64) :
    Emits cap s
      (aformat (if roomLeft cap (s.put (chr '0')).w then (s.put (chr '0')).put (chr 'x')
          else s.put (chr '0'))
        (cap - (if roomLeft cap (s.put (chr '0')).w then (s.put (chr '0')).put (chr 'x')
          else s.put (chr '0')).w) 16 v.toNat false)
      (chr '0' :: chr 'x' :: digitText 16 false v.toNat) := by
  have hfront := (Emits.put hw (chr '0')).trans
    (Emits.put_if (roomLeft_iff (s.put (chr '0')).w) (chr 'x'))
  exact hfront.trans (aformat_emits (hfront.1.w_lt (by omega)) v false)

/-- The text of a conversion that is not `%%`. -/
def pieceText (str : BitVec 64 → List Byte) (c : Byte) (v : BitVec 64) : List Byte :=
  if takesArg c then convText str c v else [chr '%', c]

theorem takesArg_iff (c : Byte) : takesArg c = true ↔ c = chr 'c' ∨ c = chr 's' ∨ c = chr 'd' ∨
    c = chr 'u' ∨ c = chr 'x' ∨ c = chr 'X' ∨ c = chr 'p' := by
  rw [takesArg, decide_eq_true_iff]
  change c ∈ [chr 'c', chr 's', chr 'd', chr 'u', chr 'x', chr 'X', chr 'p'] ↔ _
  simp only [List.mem_cons, List.not_mem_nil, or_false]

/-- An unknown conversion is copied. -/
theorem nocFormatConv_unknown (hc : takesArg c = false) :
    nocFormatConv cap mem args fuel c s =
      some (if roomLeft cap (s.put (chr '%')).w then (s.put (chr '%')).put c
        else s.put (chr '%')) := by
  have hnot : ¬ (c = chr 'c' ∨ c = chr 's' ∨ c = chr 'd' ∨ c = chr 'u' ∨ c = chr 'x' ∨
      c = chr 'X' ∨ c = chr 'p') := by
    rw [← takesArg_iff, hc]
    exact Bool.false_ne_true
  simp only [not_or] at hnot
  obtain ⟨h₁, h₂, h₃, h₄, h₅, h₆, h₇⟩ := hnot
  simp only [nocFormatConv, if_neg h₁, if_neg h₂, if_neg h₃, if_neg h₄, h₅, h₆, or_self, if_false,
    if_neg h₇]

/-- A conversion writes its text and takes its argument. -/
theorem nocFormatConv_spec (h : nocFormatConv cap mem args fuel c s = some s')
    (hw : s.w + 1 < cap) (hstr : c = chr 's' → args s.a ≠ 0 →
      readStr mem (cap - 1 - s.w) (args s.a) = (str (args s.a)).take (cap - 1 - s.w)) :
    Output cap s s' (pieceText str c (args s.a)) ∧ Consumes args s s' (takesArg c) := by
  cases htakes : takesArg c with
  | false =>
    rw [nocFormatConv_unknown htakes] at h
    obtain rfl := Option.some.inj h
    rw [pieceText, htakes]
    have hout := (Emits.put hw (chr '%')).trans
      (Emits.put_if (roomLeft_iff (s.put (chr '%')).w) c)
    exact ⟨hout.1, hout.2.p, hout.2.fmtRead, hout.2.a, hout.2.argRead⟩
  | true =>
    rw [pieceText, if_pos htakes]
    have hroom : (s.arg args).2.w + 1 < cap := hw
    rcases (takesArg_iff c).mp htakes with rfl | rfl | rfl | rfl | rfl | rfl | rfl
    · obtain rfl := Option.some.inj h
      exact output_behind_arg (.put hroom _)
    · change putString mem (roomLeft cap) fuel (args s.a) (s.arg args).2 = some s' at h
      change Output cap s s' (if args s.a = 0 then nullText else str (args s.a)) ∧ _
      unfold putString at h
      split_ifs at h ⊢ with hzero
      · obtain rfl := Option.some.inj h
        exact output_behind_arg (putText_emits roomLeft_iff _ _)
      · obtain ⟨hout, hin⟩ := output_behind_arg (putStr_emits roomLeft_iff h)
        refine ⟨⟨?_, hout.written, hout.outside⟩, hin⟩
        have htext := hout.text
        change _ = _ ++ List.take _ (readStr mem (cap - 1 - s.w) (args s.a)) at htext
        rwa [hstr rfl hzero, List.take_take, min_self] at htext
    · obtain rfl := Option.some.inj h
      exact output_behind_arg (putSigned_emits roomLeft_iff _ _)
    · obtain rfl := Option.some.inj h
      exact output_behind_arg (putUnsigned_emits roomLeft_iff _ _)
    · obtain rfl := Option.some.inj h
      exact output_behind_arg (aformat_emits (Nat.lt_of_succ_lt hroom) _ _)
    · obtain rfl := Option.some.inj h
      exact output_behind_arg (aformat_emits (Nat.lt_of_succ_lt hroom) _ _)
    · obtain rfl := Option.some.inj h
      exact output_behind_arg (pointer_emits hroom _)

/-- A conversion ends. -/
theorem nocFormatConv_isSome (hfuel : cap - 1 - s.w < fuel) :
    ∃ s', nocFormatConv cap mem args fuel c s = some s' := by
  unfold nocFormatConv
  split_ifs
  · exact ⟨_, rfl⟩
  · change ∃ s', putString mem (roomLeft cap) fuel (args s.a) (s.arg args).2 = some s'
    unfold putString
    split_ifs
    · exact ⟨_, rfl⟩
    · exact putStr_isSome mem roomLeft_iff _ _ hfuel
  all_goals exact ⟨_, rfl⟩

/-! ### The format -/

/-- From `s` on, where `l` times `l` stands behind a `%` and the format goes on with `bs`, a formatter
has read the conversion character `c` and is at `s'`. -/
structure Scanned (fmt : ℕ → Byte) (l : ℕ) (bs : List Byte) (s : Formatter) (c : Byte)
    (s' : Formatter) : Prop where
  same : s' = { s with p := s'.p, fmtRead := s'.fmtRead }
  reads : ∀ i ∈ s'.fmtRead, i ∈ s.fmtRead ∨ i ≤ s.p + bs.length
  ends : (c ≠ 0 ∧ ∃ bs', StringAt fmt s'.p bs' ∧ s'.p + bs'.length = s.p + bs.length ∧
      splitFrom (some l) bs = (.conv c :: (splitFrom none bs').1, (splitFrom none bs').2)) ∨
    c = 0 ∧ s'.p = s.p + bs.length + 1 ∧ ∃ l', splitFrom (some l) bs = ([], some l')

/-- The character that ends the conversion, or the end of the format. -/
theorem Scanned.last {l : ℕ} (h : StringAt fmt s.p bs) (hl : ¬ (fmt s.p = chr 'l' ∧ l < 2)) :
    Scanned fmt l bs s (fmt s.p) (s.next fmt).2 := by
  have hreads : ∀ i ∈ (s.next fmt).2.fmtRead, i ∈ s.fmtRead ∨ i ≤ s.p + bs.length := by
    intro i hi
    rcases List.mem_cons.mp hi with rfl | hi
    · exact Or.inr (Nat.le_add_right _ _)
    · exact Or.inl hi
  refine ⟨rfl, hreads, ?_⟩
  cases bs with
  | nil => exact Or.inr ⟨h, rfl, l, rfl⟩
  | cons c bs =>
    obtain ⟨hc, rfl, hrest⟩ := h
    refine Or.inl ⟨hc, bs, hrest, ?_, if_neg hl⟩
    change s.p + 1 + bs.length = s.p + (bs.length + 1)
    omega

/-- A length modifier. -/
theorem Scanned.step {l : ℕ} (hl : l < 2) (h : Scanned fmt (l + 1) bs (s.next fmt).2 c s') :
    Scanned fmt l (chr 'l' :: bs) s c s' := by
  have hlength : (s.next fmt).2.p + bs.length = s.p + (chr 'l' :: bs).length := by
    change s.p + 1 + bs.length = s.p + (bs.length + 1)
    omega
  have hsplit : splitFrom (some l) (chr 'l' :: bs) = splitFrom (some (l + 1)) bs :=
    if_pos ⟨rfl, hl⟩
  refine ⟨h.same, fun i hi ↦ ?_, ?_⟩
  · rcases h.reads i hi with hi | hi
    · rcases List.mem_cons.mp hi with rfl | hi
      · exact Or.inr (Nat.le_add_right _ _)
      · exact Or.inl hi
    · exact Or.inr (hlength ▸ hi)
  · rw [hsplit, ← hlength]
    exact h.ends

/-- `conversion` reads the modifiers and the character behind them. -/
theorem conversion_scanned (h : StringAt fmt s.p bs) :
    Scanned fmt 0 bs s (conversion fmt s).2.1 (conversion fmt s).2.2 := by
  have hcons : ∀ {s : Formatter} {bs : List Byte}, StringAt fmt s.p bs → fmt s.p = chr 'l' →
      ∃ bs', bs = chr 'l' :: bs' ∧ StringAt fmt (s.next fmt).2.p bs' := by
    intro s bs h hl
    cases bs with
    | nil => exact absurd (h.symm.trans hl) (by decide)
    | cons c bs =>
      obtain ⟨-, hc, hrest⟩ := h
      exact ⟨bs, by rw [← hl, hc], hrest⟩
  simp only [conversion]
  split_ifs with hfirst hsecond
  · obtain ⟨bs₁, rfl, h₁⟩ := hcons h hfirst
    obtain ⟨bs₂, rfl, h₂⟩ := hcons h₁ hsecond
    exact .step (by omega) (.step (by omega) (.last h₂ (by omega)))
  · obtain ⟨bs₁, rfl, h₁⟩ := hcons h hfirst
    exact .step (by omega) (.last h₁ fun hl ↦ hsecond hl.1)
  · exact .last h fun hl ↦ hfirst hl.1

/-! ### One round -/

/-- How many arguments a part of a format takes. -/
def Piece.takes : Piece → ℕ
  | .plain _ => 0
  | .conv c => if takesArg c then 1 else 0

/-- What a part of a format prints when it finds argument `a`. -/
def Piece.text (str : BitVec 64 → List Byte) (args : ℕ → BitVec 64) (a : ℕ) : Piece → List Byte
  | .plain c => [c]
  | .conv c => if c = chr '%' then [chr '%'] else pieceText str c (args a)

/-- A part of a format prints nothing and ends the formatting when no argument is left. -/
def Piece.Starved (n a : ℕ) : Piece → Prop
  | .plain _ => False
  | .conv c => c ≠ chr '%' ∧ n ≤ a

variable {a : ℕ} {pc : Piece} {ps : List Piece}

theorem render_starved (h : pc.Starved n a) : render str args n a (pc :: ps) = [] := by
  cases pc with
  | plain c => exact h.elim
  | conv c => rw [render, if_neg h.1, if_pos h.2]

theorem render_cons (h : ¬ pc.Starved n a) : render str args n a (pc :: ps) =
    pc.text str args a ++ render str args n (a + pc.takes) ps := by
  cases pc with
  | plain c => rfl
  | conv c =>
    simp only [render, Piece.text, Piece.takes, pieceText]
    by_cases hpercent : c = chr '%'
    · subst hpercent
      rfl
    · have ha : ¬ n ≤ a := fun ha ↦ h ⟨hpercent, ha⟩
      by_cases htakes : takesArg c = true
      · simp only [if_neg hpercent, if_neg ha, if_pos htakes]
      · simp only [if_neg hpercent, if_neg ha, if_neg htakes]
        rfl

theorem argsTaken_cons (pc : Piece) (ps : List Piece) :
    argsTaken (pc :: ps) = argsTaken ps + pc.takes := by
  cases pc <;> rfl

theorem stringArgs_cons (h : ¬ pc.Starved n a) {v : BitVec 64}
    (hv : v ∈ stringArgs args n (a + pc.takes) ps) :
    v ∈ stringArgs args n a (pc :: ps) := by
  cases pc with
  | plain c => exact hv
  | conv c =>
    simp only [stringArgs]
    by_cases hpercent : c = chr '%'
    · subst hpercent
      exact hv
    · have ha : ¬ n ≤ a := fun ha ↦ h ⟨hpercent, ha⟩
      by_cases htakes : takesArg c = true
      · simp only [Piece.takes, if_pos htakes] at hv
        rw [if_neg hpercent, if_neg ha, if_pos htakes]
        split_ifs
        · exact List.mem_cons_of_mem _ hv
        · exact hv
      · simp only [Piece.takes, if_neg htakes] at hv
        rwa [if_neg hpercent, if_neg ha, if_neg htakes]

/-- The argument of a string conversion is a string argument. -/
theorem mem_stringArgs (ha : ¬ n ≤ a) (hv : args a ≠ 0) :
    args a ∈ stringArgs args n a (.conv (chr 's') :: ps) := by
  have hs : chr 's' ≠ chr '%' := by decide
  have htakes : takesArg (chr 's') = true := by decide
  rw [stringArgs, if_neg hs, if_neg ha, if_pos htakes, if_pos ⟨rfl, hv⟩]
  exact List.mem_cons_self

/-- The strings among the arguments that `ps` takes from `a` on are the ones `str` gives, as far as
a buffer of `cap` bytes holds them. -/
def StringsAre (mem : BitVec 64 → Byte) (str : BitVec 64 → List Byte) (cap : ℕ)
    (vs : List (BitVec 64)) : Prop :=
  ∀ v ∈ vs, ∀ k < cap, readStr mem k v = (str v).take k

/-- What one round of the loop has done on its way from `s` to the result `s'`. -/
inductive Round (cap : ℕ) (fmt : ℕ → Byte) (mem : BitVec 64 → Byte) (args : ℕ → BitVec 64) (n : ℕ)
    (str : BitVec 64 → List Byte) (fuel : ℕ) (bs : List Byte) (s s' : Formatter) : Prop
  | ends (hout : Output cap s s' [])
      (hreads : ∀ i ∈ s'.fmtRead, i ∈ s.fmtRead ∨ i ≤ s.p + bs.length)
      (hwhy : bs = [] ∨ ¬ s.w + 1 < cap ∨
        (∃ pc ps o, splitFrom none bs = (pc :: ps, o) ∧ pc.Starved n s.a) ∨
        n ≤ s.a ∧ ∃ l, splitFrom none bs = ([], some l))
  | piece (s₁ : Formatter) (pc : Piece) (bs' : List Byte) (hstarved : ¬ pc.Starved n s.a)
      (hroom : s.w + 1 < cap) (hout : Output cap s s₁ (pc.text str args s.a))
      (ha : s₁.a = s.a + pc.takes)
      (hreads : ∀ i ∈ s₁.fmtRead, i ∈ s.fmtRead ∨ i ≤ s.p + bs.length)
      (hfmt : StringAt fmt s₁.p bs') (hend : s₁.p + bs'.length = s.p + bs.length)
      (hsplit : splitFrom none bs = (pc :: (splitFrom none bs').1, (splitFrom none bs').2))
      (hrest : nocFormatLoop cap fmt mem args n fuel s₁ = some s')
  | cutOff (s₁ : Formatter) (l : ℕ) (ha : s.a < n) (hroom : s.w + 1 < cap)
      (hp : s₁.p = s.p + bs.length + 1) (hsplit : splitFrom none bs = ([], some l))
      (hrest : nocFormatLoop cap fmt mem args n fuel s₁ = some s')

/-- The formatter behind the character it has just seen. -/
def behindFirst (fmt : ℕ → Byte) (s : Formatter) : Formatter := ((s.peek fmt).2.next fmt).2

/-- The ways a round can go. -/
theorem nocFormatLoop_succ {r : Option Formatter}
    (h : nocFormatLoop cap fmt mem args n (fuel + 1) s = r) :
    (r = some (s.peek fmt).2 ∧ (fmt s.p = 0 ∨ ¬ s.w + 1 < cap)) ∨
    s.w + 1 < cap ∧ fmt s.p ≠ 0 ∧
      (fmt s.p ≠ chr '%' ∧
          nocFormatLoop cap fmt mem args n fuel ((behindFirst fmt s).put (fmt s.p)) = r ∨
        fmt s.p = chr '%' ∧ ∃ c s₁, c = (conversion fmt (behindFirst fmt s)).2.1 ∧
          s₁ = (conversion fmt (behindFirst fmt s)).2.2 ∧
          (c = chr '%' ∧ nocFormatLoop cap fmt mem args n fuel (s₁.put (chr '%')) = r ∨
            c ≠ chr '%' ∧ (n ≤ s₁.a ∧ r = some s₁ ∨
              s₁.a < n ∧ (nocFormatConv cap mem args fuel c s₁ = none ∧ r = none ∨
                ∃ s₂, nocFormatConv cap mem args fuel c s₁ = some s₂ ∧
                  nocFormatLoop cap fmt mem args n fuel s₂ = r)))) := by
  rw [nocFormatLoop] at h
  simp only at h
  by_cases hstop : (s.peek fmt).1 = 0 ∨ roomLeft cap (s.peek fmt).2.w = false
  · rw [if_pos hstop] at h
    refine Or.inl ⟨h.symm, hstop.imp_right fun hfull hw ↦ ?_⟩
    exact Bool.false_ne_true (hfull.symm.trans ((roomLeft_iff _).mpr hw))
  · rw [if_neg hstop] at h
    obtain ⟨hnul, hroom⟩ := not_or.mp hstop
    refine Or.inr ⟨(roomLeft_iff _).mp (Bool.eq_true_of_not_eq_false hroom), hnul, ?_⟩
    by_cases hplain : ((s.peek fmt).2.next fmt).1 ≠ chr '%'
    · rw [if_pos hplain] at h
      exact Or.inl ⟨hplain, h⟩
    · rw [if_neg hplain] at h
      refine Or.inr ⟨not_not.mp hplain, _, _, rfl, rfl, ?_⟩
      by_cases hpercent : (conversion fmt ((s.peek fmt).2.next fmt).2).2.1 = chr '%'
      · rw [if_pos hpercent] at h
        exact Or.inl ⟨hpercent, h⟩
      · rw [if_neg hpercent] at h
        refine Or.inr ⟨hpercent, ?_⟩
        by_cases hstarved : n ≤ (conversion fmt ((s.peek fmt).2.next fmt).2).2.2.a
        · rw [if_pos hstarved] at h
          exact Or.inl ⟨hstarved, h.symm⟩
        · rw [if_neg hstarved] at h
          refine Or.inr ⟨Nat.lt_of_not_le hstarved, ?_⟩
          split at h
          · rename_i hconv
            exact Or.inl ⟨hconv, h.symm⟩
          · rename_i s₂ hconv
            exact Or.inr ⟨s₂, hconv, h⟩

/-- A conversion takes its argument, whatever is at the addresses of strings. -/
theorem nocFormatConv_consumes (h : nocFormatConv cap mem args fuel c s = some s')
    (hw : s.w + 1 < cap) :
    Consumes args s s' (takesArg c) ∧
      ∃ str, Output cap s s' (pieceText str c (args s.a)) := by
  have hread : readStr mem (cap - 1 - s.w) (args s.a) =
      (readStr mem (cap - 1 - s.w) (args s.a)).take (cap - 1 - s.w) := readStr_take mem _ le_rfl
  obtain ⟨hout, hin⟩ := nocFormatConv_spec h hw fun _ _ ↦ hread
  exact ⟨hin, _, hout⟩

/-- Reading a conversion changes nothing but the position in the format. -/
theorem conversion_same (fmt : ℕ → Byte) (s : Formatter) :
    (conversion fmt s).2.2 = { s with
      p := (conversion fmt s).2.2.p, fmtRead := (conversion fmt s).2.2.fmtRead } := by
  simp only [conversion]
  split_ifs <;> rfl

/-- A round that meets a conversion. -/
theorem nocFormatLoop_conv {c₀ : Byte} {s₁ : Formatter} (hw : s.w + 1 < cap)
    (hscan : Scanned fmt 0 bs (behindFirst fmt s) c s₁)
    (hsplit₀ : splitFrom none (c₀ :: bs) = splitFrom (some 0) bs)
    (hstr : StringsAre mem str cap (stringArgs args n s.a (splitFrom none (c₀ :: bs)).1))
    (hreads : ∀ i ∈ s.p :: s.p :: s.fmtRead, i ∈ s.fmtRead ∨ i ≤ s.p + (c₀ :: bs).length)
    (hgo : c = chr '%' ∧ nocFormatLoop cap fmt mem args n fuel (s₁.put (chr '%')) = some s' ∨
      c ≠ chr '%' ∧ (n ≤ s₁.a ∧ some s' = some s₁ ∨
        s₁.a < n ∧ (nocFormatConv cap mem args fuel c s₁ = none ∧ some s' = none ∨
          ∃ s₂, nocFormatConv cap mem args fuel c s₁ = some s₂ ∧
            nocFormatLoop cap fmt mem args n fuel s₂ = some s'))) :
    Round cap fmt mem args n str fuel (c₀ :: bs) s s' := by
  obtain ⟨hsame, hreads₁, hends⟩ := hscan
  have hlength : s.p + 1 + bs.length = s.p + (c₀ :: bs).length := by
    rw [List.length_cons]
    omega
  have hout₁ : s₁.out = s.out := by rw [hsame]; rfl
  have hw₁ : s₁.w = s.w := by rw [hsame]; rfl
  have ha₁ : s₁.a = s.a := by rw [hsame]; rfl
  have hwritten₁ : s₁.written = s.written := by rw [hsame]; rfl
  have hroom₁ : s₁.w + 1 < cap := by rwa [hw₁]
  replace hreads₁ : ∀ i ∈ s₁.fmtRead, i ∈ s.fmtRead ∨ i ≤ s.p + (c₀ :: bs).length := by
    intro i hi
    rcases hreads₁ i hi with hi | hi
    · exact hreads i hi
    · exact Or.inr (hlength ▸ hi)
  rcases hends with ⟨-, bs', hfmt', hend', hsplit'⟩ | ⟨hzero, hp, l, hsplit'⟩
  · have hsplit := hsplit₀.trans hsplit'
    have hend : s₁.p + bs'.length = s.p + (c₀ :: bs).length := hend'.trans hlength
    rcases hgo with ⟨rfl, hloop⟩ | ⟨hne, ⟨hstarved, hs'⟩ | ⟨hlt, ⟨-, hs'⟩ | ⟨s₂, hconv, hloop⟩⟩⟩
    · exact .piece _ (.conv (chr '%')) bs' (fun h ↦ h.1 rfl) hw
        (.of_same hout₁ hw₁ hwritten₁ (.put hroom₁ _)) ha₁ hreads₁ hfmt' hend hsplit hloop
    · obtain rfl := Option.some.inj hs'
      rw [ha₁] at hstarved
      exact .ends (.of_same hout₁ hw₁ hwritten₁ (.refl cap _)) hreads₁
        (Or.inr (Or.inr (Or.inl ⟨_, _, _, hsplit, hne, hstarved⟩)))
    · cases hs'
    · have hstr₁ : c = chr 's' → args s₁.a ≠ 0 → readStr mem (cap - 1 - s₁.w) (args s₁.a) =
          (str (args s₁.a)).take (cap - 1 - s₁.w) := by
        rintro rfl hv
        rw [ha₁] at hv hlt ⊢
        refine hstr _ ?_ _ (by omega)
        rw [hsplit]
        exact mem_stringArgs (Nat.not_le_of_lt hlt) hv
      obtain ⟨hout, hin⟩ := nocFormatConv_spec hconv hroom₁ hstr₁
      have htext : Piece.text str args s.a (.conv c) = pieceText str c (args s₁.a) := by
        rw [Piece.text, if_neg hne, ha₁]
      refine .piece s₂ (.conv c) bs' (fun h ↦ absurd h.2 (ha₁ ▸ Nat.not_le_of_lt hlt)) hw
        (htext ▸ .of_same hout₁ hw₁ hwritten₁ hout) (by rw [hin.a, ha₁]; rfl) ?_
        (hin.p ▸ hfmt') (hin.p ▸ hend) hsplit hloop
      rwa [hin.fmtRead]
  · have hsplit := hsplit₀.trans hsplit'
    have hne : c ≠ chr '%' := by
      rw [hzero]
      decide
    rcases hgo with ⟨heq, -⟩ | ⟨-, ⟨hstarved, hs'⟩ | ⟨hlt, ⟨-, hs'⟩ | ⟨s₂, hconv, hloop⟩⟩⟩
    · exact absurd heq hne
    · obtain rfl := Option.some.inj hs'
      rw [ha₁] at hstarved
      exact .ends (.of_same hout₁ hw₁ hwritten₁ (.refl cap _)) hreads₁
        (Or.inr (Or.inr (Or.inr ⟨hstarved, l, hsplit⟩)))
    · cases hs'
    · refine .cutOff s₂ l (ha₁ ▸ hlt) hw ?_ hsplit hloop
      rw [(nocFormatConv_consumes hconv hroom₁).1.p, hp]
      change s.p + 1 + bs.length + 1 = _
      omega

/-- One round, where the rest of the format is `bs`. -/
theorem nocFormatLoop_round (h : nocFormatLoop cap fmt mem args n (fuel + 1) s = some s')
    (hfmt : StringAt fmt s.p bs)
    (hstr : StringsAre mem str cap (stringArgs args n s.a (splitFrom none bs).1)) :
    Round cap fmt mem args n str fuel bs s s' := by
  have hreads : ∀ i ∈ s.p :: s.p :: s.fmtRead, i ∈ s.fmtRead ∨ i ≤ s.p + bs.length := by
    intro i hi
    simp only [List.mem_cons] at hi
    rcases hi with rfl | rfl | hi
    · exact Or.inr (Nat.le_add_right _ _)
    · exact Or.inr (Nat.le_add_right _ _)
    · exact Or.inl hi
  rcases nocFormatLoop_succ h with ⟨hs', hstop⟩ | ⟨hw, hnul, hgo⟩
  · obtain rfl := Option.some.inj hs'
    have hpeek : Output cap (s.peek fmt).2 (s.peek fmt).2 [] := .refl cap _
    have hsame : Output cap s (s.peek fmt).2 [] := by
      refine .of_same ?_ ?_ ?_ hpeek <;> rfl
    refine .ends hsame
      (fun i hi ↦ hreads i (List.mem_cons_of_mem _ hi)) (hstop.imp (fun hnul ↦ ?_) Or.inl)
    cases bs with
    | nil => rfl
    | cons c bs => exact absurd (hfmt.2.1.symm.trans hnul) hfmt.1
  · cases bs with
    | nil => exact absurd hfmt hnul
    | cons c₀ bs =>
      obtain ⟨-, hc₀, hrest⟩ := hfmt
      rcases hgo with ⟨hplain, hloop⟩ | ⟨hpercent, c, s₁, hc, hs₁, hgo⟩
      · have hsplit : splitFrom none (c₀ :: bs) =
            (.plain c₀ :: (splitFrom none bs).1, (splitFrom none bs).2) :=
          if_neg (hc₀ ▸ hplain)
        have hroom : (behindFirst fmt s).w + 1 < cap := hw
        have hend : s.p + 1 + bs.length = s.p + (c₀ :: bs).length := by
          rw [List.length_cons]
          omega
        rw [hc₀] at hloop
        have hput : Output cap (behindFirst fmt s) ((behindFirst fmt s).put c₀) [c₀] :=
          .put hroom c₀
        have hout : Output cap s ((behindFirst fmt s).put c₀) [c₀] := by
          refine .of_same ?_ ?_ ?_ hput <;> rfl
        exact .piece _ (.plain c₀) bs not_false hw hout rfl hreads hrest hend hsplit hloop
      · have hsplit : splitFrom none (c₀ :: bs) = splitFrom (some 0) bs := if_pos (hc₀ ▸ hpercent)
        have hscan := conversion_scanned (s := behindFirst fmt s) hrest
        rw [← hc, ← hs₁] at hscan
        exact nocFormatLoop_conv hw hscan hsplit hstr hreads hgo

/-! ### Runs -/

/-- The formatting runs over the end of the format: a conversion is cut off there, and an argument
and room are left when it is reached. -/
structure RunsOver (cap n : ℕ) (str : BitVec 64 → List Byte) (args : ℕ → BitVec 64) (a w : ℕ)
    (r : List Piece × Option ℕ) : Prop where
  open? : r.2 ≠ none
  argLeft : a + argsTaken r.1 < n
  roomLeft : w + (render str args n a r.1).length + 1 < cap

theorem fmtRead_conversion (fmt : ℕ → Byte) (s : Formatter) :
    ∀ i ∈ s.fmtRead, i ∈ (conversion fmt s).2.2.fmtRead := by
  intro i hi
  simp only [conversion]
  split_ifs
  · exact List.mem_cons_of_mem _ (List.mem_cons_of_mem _ (List.mem_cons_of_mem _ hi))
  · exact List.mem_cons_of_mem _ (List.mem_cons_of_mem _ hi)
  · exact List.mem_cons_of_mem _ hi

/-- What has been read stays read, and the next character is read. -/
theorem nocFormatLoop_reads (h : nocFormatLoop cap fmt mem args n fuel s = some s') :
    s.p ∈ s'.fmtRead ∧ ∀ i ∈ s.fmtRead, i ∈ s'.fmtRead := by
  induction fuel generalizing s with
  | zero => cases h
  | succ fuel ih =>
    have hfirst : ∀ i ∈ s.p :: s.fmtRead, i ∈ (behindFirst fmt s).fmtRead :=
      fun i hi ↦ List.mem_cons_of_mem _ hi
    suffices hall : ∀ i ∈ s.p :: s.fmtRead, i ∈ s'.fmtRead from
      ⟨hall _ List.mem_cons_self, fun i hi ↦ hall i (List.mem_cons_of_mem _ hi)⟩
    intro i hi
    rcases nocFormatLoop_succ h with ⟨hs', -⟩ | ⟨hw, -, ⟨-, hloop⟩ | ⟨-, c, s₁, -, rfl, hgo⟩⟩
    · obtain rfl := Option.some.inj hs'
      exact hi
    · exact (ih hloop).2 i (hfirst i hi)
    · have hconv := fmtRead_conversion fmt (behindFirst fmt s) i (hfirst i hi)
      rcases hgo with ⟨-, hloop⟩ | ⟨-, ⟨-, hs'⟩ | ⟨-, ⟨-, hs'⟩ | ⟨s₂, hsome, hloop⟩⟩⟩
      · exact (ih hloop).2 i hconv
      · obtain rfl := Option.some.inj hs'
        exact hconv
      · cases hs'
      · have hroom : (conversion fmt (behindFirst fmt s)).2.2.w + 1 < cap := by
          rw [conversion_same]
          exact hw
        refine (ih hloop).2 i ?_
        rwa [(nocFormatConv_consumes hsome hroom).1.fmtRead]

/-- What a run does from anywhere in the buffer, whatever the format is: it ends, and it reads no
argument that is not there. -/
theorem nocFormatLoop_total (cap : ℕ) (fmt : ℕ → Byte) (mem : BitVec 64 → Byte)
    (args : ℕ → BitVec 64) (n : ℕ) (hw : s.w < cap) (hfuel : cap - s.w + (n - s.a) < fuel) :
    ∃ s', nocFormatLoop cap fmt mem args n fuel s = some s' ∧
      ∀ i ∈ s'.argRead, i ∈ s.argRead ∨ i < n := by
  induction fuel generalizing s with
  | zero => exact absurd hfuel (Nat.not_lt_zero _)
  | succ fuel ih =>
    rcases nocFormatLoop_succ (Eq.refl (nocFormatLoop cap fmt mem args n (fuel + 1) s)) with
      ⟨hstop, -⟩ | ⟨hroom, -, ⟨-, hloop⟩ | ⟨-, c, s₁, -, hs₁, hgo⟩⟩
    · exact ⟨_, hstop, fun i hi ↦ Or.inl hi⟩
    · rw [← hloop]
      refine ih (s := (behindFirst fmt s).put (fmt s.p)) hroom ?_
      change cap - (s.w + 1) + (n - s.a) < fuel
      omega
    · have hsame := conversion_same fmt (behindFirst fmt s)
      rw [← hs₁] at hsame
      have hw₁ : s₁.w = s.w := by rw [hsame]; rfl
      have ha₁ : s₁.a = s.a := by rw [hsame]; rfl
      have hargs₁ : s₁.argRead = s.argRead := by rw [hsame]; rfl
      rcases hgo with ⟨-, hloop⟩ | ⟨-, ⟨-, hstop⟩ | ⟨hlt, ⟨hnone, -⟩ | ⟨s₂, hconv, hloop⟩⟩⟩
      · rw [← hloop, ← hargs₁]
        refine ih (s := s₁.put (chr '%')) (by rw [← hw₁] at hroom; exact hroom) ?_
        change cap - (s₁.w + 1) + (n - s₁.a) < fuel
        omega
      · exact ⟨_, hstop, fun i hi ↦ Or.inl (hargs₁ ▸ hi)⟩
      · obtain ⟨s₂, hsome⟩ : ∃ s₂, nocFormatConv cap mem args fuel c s₁ = some s₂ :=
          nocFormatConv_isSome (by omega)
        rw [hnone] at hsome
        cases hsome
      · obtain ⟨hin, str, hout⟩ := nocFormatConv_consumes hconv (by omega)
        have hw₂ := hout.w_eq
        have ha₂ := hin.a
        have hread₂ := hin.argRead
        have hless : cap - s₂.w + (n - s₂.a) < fuel := by
          cases htakes : takesArg c
          · rw [pieceText, htakes] at hw₂
            rw [htakes] at ha₂
            simp only [Bool.false_eq_true, if_false, List.length_cons, List.length_nil] at hw₂ ha₂
            omega
          · rw [htakes, if_pos rfl] at ha₂
            omega
        obtain ⟨s', hs', hall⟩ := ih (s := s₂) (by omega) hless
        refine ⟨s', hloop ▸ hs', fun i hi ↦ ?_⟩
        rcases hall i hi with hi | hi
        · rw [hread₂] at hi
          split_ifs at hi
          · rcases List.mem_cons.mp hi with rfl | hi
            · exact Or.inr hlt
            · exact Or.inl (hargs₁ ▸ hi)
          · exact Or.inl (hargs₁ ▸ hi)
        · exact Or.inr hi

/-- Running over the end is a matter of the rest of the format. -/
theorem runsOver_cons {s₁ : Formatter} {o : Option ℕ} (hstarved : ¬ pc.Starved n s.a)
    (hout : Output cap s s₁ (pc.text str args s.a)) (ha : s₁.a = s.a + pc.takes) :
    RunsOver cap n str args s.a s.w (pc :: ps, o) ↔
      RunsOver cap n str args s₁.a s₁.w (ps, o) := by
  have hw := hout.w_eq
  have htaken := argsTaken_cons pc ps
  have hrender : render str args n s.a (pc :: ps) =
      pc.text str args s.a ++ render str args n (s.a + pc.takes) ps := render_cons hstarved
  have hlength := congrArg List.length hrender
  rw [List.length_append, ← ha] at hlength
  constructor
  · rintro ⟨hopen, hargs, hroom⟩
    simp only at hopen hargs hroom
    exact ⟨hopen, by simp only; omega, by simp only; omega⟩
  · rintro ⟨hopen, hargs, hroom⟩
    simp only at hopen hargs hroom
    exact ⟨hopen, by simp only; omega, by simp only; omega⟩

/-- A run prints the rest of its format and stays inside it, or it runs over the end and reads
behind the terminator. -/
theorem nocFormatLoop_spec (h : nocFormatLoop cap fmt mem args n fuel s = some s')
    (hfmt : StringAt fmt s.p bs)
    (hstr : StringsAre mem str cap (stringArgs args n s.a (splitFrom none bs).1)) :
    (¬ RunsOver cap n str args s.a s.w (splitFrom none bs) →
      Output cap s s' (render str args n s.a (splitFrom none bs).1) ∧
        ∀ i ∈ s'.fmtRead, i ∈ s.fmtRead ∨ i ≤ s.p + bs.length) ∧
    (RunsOver cap n str args s.a s.w (splitFrom none bs) → s.p + bs.length + 1 ∈ s'.fmtRead) := by
  induction fuel generalizing s bs with
  | zero => cases h
  | succ fuel ih =>
    cases nocFormatLoop_round h hfmt hstr with
    | ends hout hreads hwhy =>
      rcases hwhy with rfl | hfull | ⟨pc, ps, o, hsplit, hstarved⟩ | ⟨hnone, l, hsplit⟩
      · exact ⟨fun _ ↦ ⟨hout, hreads⟩, fun hover ↦ absurd rfl hover.open?⟩
      · refine ⟨fun _ ↦ ⟨hout.of_full hfull _, hreads⟩, fun hover ↦ ?_⟩
        have hroom := hover.roomLeft
        omega
      · rw [hsplit, render_starved hstarved]
        refine ⟨fun _ ↦ ⟨hout, hreads⟩, fun hover ↦ ?_⟩
        cases pc with
        | plain c => exact hstarved.elim
        | conv c =>
          have hlt := hover.argLeft
          have hle := hstarved.2
          omega
      · rw [hsplit]
        refine ⟨fun _ ↦ ⟨hout, hreads⟩, fun hover ↦ ?_⟩
        have hlt := hover.argLeft
        omega
    | piece s₁ pc bs' hstarved hroom hout ha hreads hfmt' hend hsplit hrest =>
      have hstr' : StringsAre mem str cap (stringArgs args n s₁.a (splitFrom none bs').1) := by
        intro v hv
        refine hstr v ?_
        rw [hsplit]
        exact stringArgs_cons hstarved (ha ▸ hv)
      obtain ⟨hstays, hover⟩ := ih hrest hfmt' hstr'
      rw [hsplit, runsOver_cons hstarved hout ha, render_cons hstarved, ← ha]
      refine ⟨fun hno ↦ ?_, fun hyes ↦ hend ▸ hover hyes⟩
      obtain ⟨hout', hreads'⟩ := hstays hno
      refine ⟨hout.trans hout', fun i hi ↦ ?_⟩
      rcases hreads' i hi with hi | hi
      · exact hreads i hi
      · exact Or.inr (hend ▸ hi)
    | cutOff s₁ l ha hroom hp hsplit hrest =>
      have hyes : RunsOver cap n str args s.a s.w (splitFrom none bs) := by
        rw [hsplit]
        exact ⟨by rintro ⟨⟩, ha, hroom⟩
      exact ⟨fun hno ↦ absurd hyes hno, fun _ ↦ hp ▸ (nocFormatLoop_reads hrest).1⟩

/-! ### Results -/

/-- The reference formatting of a format: unbounded, and without a memory of its own. -/
def reference (str : BitVec 64 → List Byte) (args : ℕ → BitVec 64) (n : ℕ) (bs : List Byte) :
    List Byte :=
  render str args n 0 (splitFormat bs).1

/-- The formatting of `bs` runs over its end. -/
def OverrunsFormat (cap n : ℕ) (str : BitVec 64 → List Byte) (args : ℕ → BitVec 64)
    (bs : List Byte) : Prop :=
  RunsOver cap n str args 0 0 (splitFormat bs)

/-- A call that formats has been through its loop. -/
theorem nocFormat_eq_some {out : ℕ → Byte} {ok : Bool} (hcap : 1 ≤ cap)
    (h : nocFormat cap fmt mem args n fuel (some out) = some (ok, s)) :
    ∃ s₁, nocFormatLoop cap fmt mem args n fuel (.start out) = some s₁ ∧ s = s₁.terminate := by
  rw [nocFormat, if_neg (by omega)] at h
  split at h
  · cases h
  · rename_i s₁ hloop
    exact ⟨s₁, hloop, (Prod.mk.inj (Option.some.inj h)).2.symm⟩

/-- A call with enough fuel ends, and it has read no argument that is not there. -/
theorem nocFormat_total (fmt : ℕ → Byte) (mem : BitVec 64 → Byte) (args : ℕ → BitVec 64) (n : ℕ)
    (out : ℕ → Byte) (hcap : 1 ≤ cap) (hfuel : cap + n < fuel) :
    ∃ s, nocFormat cap fmt mem args n fuel (some out) = some (true, s) ∧
      ∀ i ∈ s.argRead, i < n := by
  obtain ⟨s, hs, hall⟩ := nocFormatLoop_total cap fmt mem args n (s := .start out) hcap
    (by change cap - 0 + (n - 0) < fuel; omega)
  refine ⟨s.terminate, ?_, fun i hi ↦ (hall i hi).resolve_left List.not_mem_nil⟩
  rw [nocFormat, if_neg (by omega), hs]

/-- What a call leaves when its formatting does not run over the end of the format. -/
theorem nocFormat_spec {out : ℕ → Byte} (hcap : 1 ≤ cap)
    (h : nocFormat cap fmt mem args n fuel (some out) = some (true, s)) (hfmt : StringAt fmt 0 bs)
    (hstr : StringsAre mem str cap (stringArgs args n 0 (splitFormat bs).1)) :
    (¬ OverrunsFormat cap n str args bs →
      Output cap (.start out) s (reference str args n bs) ∧ s.out s.w = 0 ∧
        ∀ i ∈ s.fmtRead, i ≤ bs.length) ∧
    (OverrunsFormat cap n str args bs → bs.length + 1 ∈ s.fmtRead) := by
  obtain ⟨s₁, hloop, rfl⟩ := nocFormat_eq_some hcap h
  obtain ⟨hstays, hover⟩ := nocFormatLoop_spec hloop hfmt hstr
  refine ⟨fun hno ↦ ?_, fun hyes ↦ ?_⟩
  · obtain ⟨hout, hreads⟩ := hstays hno
    have hend := hout.trans (.terminate (hout.w_lt hcap))
    rw [List.append_nil] at hend
    refine ⟨hend, Function.update_self _ _ _, fun i hi ↦ ?_⟩
    rcases hreads i hi with hi | hi
    · exact absurd hi List.not_mem_nil
    · exact hi.trans_eq (Nat.zero_add _)
  · have hread := hover hyes
    change 0 + bs.length + 1 ∈ s₁.fmtRead at hread
    rwa [Nat.zero_add] at hread

theorem stringsAre_of_stringAt {vs : List (BitVec 64)}
    (h : ∀ v ∈ vs, StringAt mem v (str v)) (cap : ℕ) : StringsAre mem str cap vs :=
  fun v hv k _ ↦ readStr_eq_take (h v hv) k

/-- `noc_format` leaves the reference formatting, cut off where the buffer ends, and so a prefix of
what it leaves in any larger buffer. -/
theorem nocFormat_eq_reference {out : ℕ → Byte} (hcap : 1 ≤ cap) (hfuel : cap + n < fuel)
    (hfmt : StringAt fmt 0 bs) (hcomplete : Complete bs)
    (hstr : ∀ v ∈ stringArgs args n 0 (splitFormat bs).1, StringAt mem v (str v)) :
    ∃ s, nocFormat cap fmt mem args n fuel (some out) = some (true, s) ∧
      (∀ i ∈ s.written, i < cap) ∧ (∀ k, cap ≤ k → s.out k = out k) ∧
      s.text = (reference str args n bs).take (cap - 1) ∧ s.out s.w = 0 ∧
      ∀ cap' fuel' s', cap ≤ cap' →
        nocFormat cap' fmt mem args n fuel' (some out) = some (true, s') → s.text <+: s'.text := by
  have hno : ∀ cap', ¬ OverrunsFormat cap' n str args bs := fun cap' hover ↦ hover.open? hcomplete
  have htext : ∀ cap' fuel' s', 1 ≤ cap' →
      nocFormat cap' fmt mem args n fuel' (some out) = some (true, s') →
      Output cap' (.start out) s' (reference str args n bs) ∧ s'.out s'.w = 0 := by
    intro cap' fuel' s' hcap' hs'
    obtain ⟨hout, hnul, -⟩ :=
      (nocFormat_spec hcap' hs' hfmt (stringsAre_of_stringAt hstr cap')).1 (hno cap')
    exact ⟨hout, hnul⟩
  obtain ⟨s, hs, -⟩ := nocFormat_total fmt mem args n out hcap hfuel
  obtain ⟨hout, hnul⟩ := htext cap fuel s hcap hs
  refine ⟨s, hs, fun i hi ↦ (hout.written i hi).resolve_left List.not_mem_nil, hout.outside,
    hout.text, hnul, fun cap' fuel' s' hle hs' ↦ ?_⟩
  have htext' := (htext cap' fuel' s' (by omega) hs').1.text
  rw [hout.text, htext']
  change (reference str args n bs).take (cap - 1) <+: (reference str args n bs).take (cap' - 1)
  exact List.take_prefix_take_left (by omega)

/-- `"%d %s"` with -5 and a string in a buffer of five bytes. -/
theorem nocFormat_eq_reference_cut :
    ∃ s, nocFormat 5 (memOf ("%d %s".toList.map chr)) (fun v ↦ if v = 64 then chr 'a' else 0)
        (fun k ↦ if k = 0 then -5 else 64) 2 8 (some fun _ ↦ 0) = some (true, s) ∧
      s.text = "-5 a".toList.map chr := by
  have hfmt : StringAt (memOf ("%d %s".toList.map chr)) 0 ("%d %s".toList.map chr) :=
    stringAt_memOf [] (by decide)
  have hstr : ∀ v ∈ stringArgs (fun k ↦ if k = 0 then -5 else 64) 2 0
      (splitFormat ("%d %s".toList.map chr)).1,
      StringAt (fun v : BitVec 64 ↦ if v = 64 then chr 'a' else 0) v [chr 'a'] := by
    intro v hv
    obtain rfl : v = 64 := List.mem_singleton.mp hv
    exact ⟨by decide, by decide, if_neg (by decide)⟩
  obtain ⟨s, hs, -, -, htext, -⟩ :=
    nocFormat_eq_reference (by decide : 1 ≤ 5) (by decide : 5 + 2 < 8) hfmt (by decide) hstr
  exact ⟨s, hs, htext.trans (by decide)⟩

/-- The format bytes and arguments that `noc_format` reads are there, and it ends. -/
def StaysInside (cap : ℕ) (fmt : ℕ → Byte) (mem : BitVec 64 → Byte) (args : ℕ → BitVec 64) (n : ℕ)
    (out : ℕ → Byte) (len : ℕ) : Prop :=
  ∃ fuel s, nocFormat cap fmt mem args n fuel (some out) = some (true, s) ∧
    (∀ i ∈ s.fmtRead, i ≤ len) ∧ ∀ i ∈ s.argRead, i < n

theorem not_staysInside {out : ℕ → Byte} (hcap : 1 ≤ cap) (hfmt : StringAt fmt 0 bs)
    (hover : OverrunsFormat cap n (readStr mem cap) args bs) :
    ¬ StaysInside cap fmt mem args n out bs.length := by
  have hstr : StringsAre mem (readStr mem cap) cap (stringArgs args n 0 (splitFormat bs).1) :=
    fun v _ k hk ↦ readStr_take mem v hk.le
  rintro ⟨fuel, s, hs, hreads, -⟩
  have hread := hreads _ ((nocFormat_spec hcap hs hfmt hstr).2 hover)
  omega

/-- `noc_format` stays inside a format if and only if the formatting does not come to a conversion
that the end cuts off with an argument and room left. -/
theorem nocFormat_staysInside_iff {out : ℕ → Byte} (hcap : 1 ≤ cap) (hfmt : StringAt fmt 0 bs) :
    StaysInside cap fmt mem args n out bs.length ↔
      ¬ OverrunsFormat cap n (readStr mem cap) args bs := by
  have hstr : StringsAre mem (readStr mem cap) cap (stringArgs args n 0 (splitFormat bs).1) :=
    fun v _ k hk ↦ readStr_take mem v hk.le
  constructor
  · exact fun hstays hover ↦ not_staysInside hcap hfmt hover hstays
  · intro hno
    obtain ⟨s, hs, hargs⟩ := nocFormat_total fmt mem args n out hcap (Nat.lt_succ_self (cap + n))
    exact ⟨_, s, hs, ((nocFormat_spec hcap hs hfmt hstr).1 hno).2.2, hargs⟩

/-- `"%d"` with one argument. -/
theorem nocFormat_staysInside_percent_d :
    StaysInside 8 (memOf ("%d".toList.map chr)) (fun _ ↦ 0) (fun _ ↦ 7) 1 (fun _ ↦ 0) 2 := by
  have hfmt : StringAt (memOf ("%d".toList.map chr)) 0 ("%d".toList.map chr) :=
    stringAt_memOf [] (by decide)
  refine (nocFormat_staysInside_iff (by decide) hfmt).mpr fun hover ↦ ?_
  exact hover.open? (by decide)

/-- A format that is a lone `%`, with one argument and room for one character. -/
theorem nocFormat_overruns_percent :
    ¬ StaysInside 2 (memOf ("%".toList.map chr)) (fun _ ↦ 0) (fun _ ↦ 7) 1 (fun _ ↦ 0) 1 :=
  have hfmt : StringAt (memOf ("%".toList.map chr)) 0 ("%".toList.map chr) :=
    stringAt_memOf [] (by decide)
  not_staysInside (by decide) hfmt ⟨by decide, by decide, by decide⟩

end NoOsKernel.Noc
