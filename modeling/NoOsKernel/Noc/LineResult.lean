import NoOsKernel.Kern.FormatLaws
import NoOsKernel.Noc.LineCorrect

/-!
# What a line prints of its result

The end of `noc_exec_line` (`kernel/noc/exec.c`). The result of a line is a word of 64 bits; its text
is made with `%d`, which takes an `int`.
-/

set_option autoImplicit false
set_option relaxedAutoImplicit false

namespace NoOsKernel.Noc

open Lib Kern

variable {os : NocOs} {reg reg' : Registry} {env : VmEnv} {chunk : NocFn} {s : VmState} {fuel : ℕ}
  {stmts : List Stmt} {stack : ℕ → U64} {mem : BitVec 64 → Byte} {buf : ℕ → Byte} {res : U64}

/-- `"%d\n"` -/
def resultFormat : List Byte := "%d\n".toList.map chr

/-- `sprintk(buf, sizeof(buf), "%d\n", (i64)res); noc_os_puts(buf);` -/
def printResult (mem : BitVec 64 → Byte) (buf : ℕ → Byte) (res : U64) : Option (List Byte) :=
  (vsprintk (memOf resultFormat) mem (fun _ ↦ res) 32 32 buf).map fun s ↦
    ((List.range 32).map s.out).takeWhile (· ≠ 0)

/-- `noc_exec_line` on a line of which `noc_lex` and `noc_parse` have made `stmts`: what it prints of
the result. -/
def nocExecLine (os : NocOs) (reg : Registry) (env : VmEnv) (fuel : ℕ) (stmts : List Stmt)
    (stack : ℕ → U64) (mem : BitVec 64 → Byte) (buf : ℕ → Byte) : Option (List Byte) :=
  match nocCompile os reg stmts with
  | (_, .error _) => some []
  | (reg', .ok chunk) =>
    match nocVmRun reg' env fuel chunk stack with
    | none => none
    | some out =>
      match out.result with
      | some res => if chunk.lastExpr = true ∧ res ≠ 0 then printResult mem buf res else some []
      | none => some []

/-! ### The text -/

/-- The `int` that `%d` takes of a word. -/
def lowInt (res : U64) : U64 := (res.setWidth 32).signExtend 64

theorem toInt_lowInt (res : U64) : (lowInt res).toInt = res.toInt.bmod (2 ^ 32) := by
  rw [lowInt, BitVec.toInt_signExtend_of_le (by decide), BitVec.toInt_setWidth,
    BitVec.toInt_eq_toNat_bmod res, Int.bmod_bmod_of_dvd (by decide)]

/-- The `int` is the word exactly if the word is in the range of an `int`. -/
theorem lowInt_eq_iff (res : U64) :
    (lowInt res).toInt = res.toInt ↔ -2 ^ 31 ≤ res.toInt ∧ res.toInt < 2 ^ 31 := by
  rw [toInt_lowInt, Int.bmod_eq_iff (by decide)]
  omega

/-- A digit is found again from its byte. -/
theorem ofNat_chr {c : Char} (hc : c.isDigit = true) : Char.ofNat (chr c).toNat = c := by
  have hle : c.toNat ≤ 57 := by
    have hdigit := hc
    simp only [Char.isDigit, Bool.and_eq_true, decide_eq_true_eq] at hdigit
    exact hdigit.2
  have hbyte : (chr c).toNat = c.toNat := by
    change c.toNat % 256 = c.toNat
    omega
  rw [hbyte, Char.ofNat_toNat]

theorem digitText_eq (v : ℕ) : digitText 10 false v = (Nat.toDigits 10 v).map chr := rfl

theorem map_digitText (v : ℕ) :
    (digitText 10 false v).map (fun b ↦ Char.ofNat b.toNat) = Nat.toDigits 10 v := by
  rw [digitText_eq, List.map_map]
  conv_rhs => rw [← List.map_id (Nat.toDigits 10 v)]
  refine List.map_congr_left fun c hc ↦ ?_
  exact ofNat_chr (Nat.isDigit_of_mem_toDigits (by decide) (by decide) hc)

theorem digitText_injective : Function.Injective (digitText 10 false) := by
  intro v v' h
  have hdigits : Nat.toDigits 10 v = Nat.toDigits 10 v' := by
    rw [← map_digitText, h, map_digitText]
  rw [← Nat.ofDigitChars_ten_toDigits (n := v), hdigits, Nat.ofDigitChars_ten_toDigits]

/-- The bytes of a decimal number. -/
theorem mem_digitText {v : ℕ} {b : Byte} (hb : b ∈ digitText 10 false v) :
    48 ≤ b.toNat ∧ b.toNat ≤ 57 := by
  rw [digitText_eq] at hb
  obtain ⟨c, hc, rfl⟩ := List.mem_map.mp hb
  have hdigit := Nat.isDigit_of_mem_toDigits (by decide) (by decide) hc
  simp only [Char.isDigit, Bool.and_eq_true, decide_eq_true_eq] at hdigit
  change 48 ≤ c.toNat % 256 ∧ c.toNat % 256 ≤ 57
  have hlow : 48 ≤ c.toNat := hdigit.1
  have hhigh : c.toNat ≤ 57 := hdigit.2
  omega

theorem minus_notMem_digitText (v : ℕ) : chr '-' ∉ digitText 10 false v := fun h ↦
  absurd (mem_digitText h).1 (by decide)

/-- Different numbers have different texts. -/
theorem signedText_injective : Function.Injective signedText := by
  intro x y h
  unfold signedText at h
  split_ifs at h with hx hy hy
  · have habs := digitText_injective (List.cons.inj h).2
    omega
  · exact absurd (h ▸ List.mem_cons_self) (minus_notMem_digitText y.natAbs)
  · exact absurd (h.symm ▸ List.mem_cons_self) (minus_notMem_digitText x.natAbs)
  · have habs := digitText_injective h
    omega

theorem length_signedText_lowInt (res : U64) : (signedText (lowInt res).toInt).length ≤ 11 := by
  have hrange : -2 ^ 31 ≤ (lowInt res).toInt ∧ (lowInt res).toInt < 2 ^ 31 := by
    rw [toInt_lowInt]
    have hlow := Int.le_bmod (x := res.toInt) (m := 2 ^ 32) (by decide)
    have hhigh := Int.bmod_lt (x := res.toInt) (m := 2 ^ 32) (by decide)
    omega
  have hdigits : (digitText 10 false (lowInt res).toInt.natAbs).length ≤ 10 := by
    rw [digitText_eq, List.length_map]
    exact Nat.toDigits_length 10 _ 10 (by decide) (by omega)
  unfold signedText
  split_ifs
  · rw [List.length_cons]
    omega
  · omega

theorem ne_zero_of_mem_signedText {x : ℤ} {b : Byte} (hb : b ∈ signedText x) : b ≠ 0 := by
  have hdigit : b ∈ digitText 10 false x.natAbs → b ≠ 0 := by
    rintro hmem rfl
    exact absurd (mem_digitText hmem).1 (by decide)
  unfold signedText at hb
  split_ifs at hb
  · obtain rfl | hmem := List.mem_cons.mp hb
    · decide
    · exact hdigit hmem
  · exact hdigit hb

/-! ### The formatter -/

theorem hasRoom_iff {w : ℕ} : hasRoom 32 w = true ↔ w + 1 < 32 := by
  rw [hasRoom, decide_eq_true_eq]
  omega

/-- `%d` takes the first argument. -/
theorem vsprintkLoop_number : vsprintkLoop (memOf resultFormat) mem (fun _ ↦ res) 32 32 (.start buf) =
    vsprintkLoop (memOf resultFormat) mem (fun _ ↦ res) 32 31
      (putSigned (hasRoom 32) (lowInt res) ⟨buf, 0, 2, 1, [], [1, 0, 0], [0]⟩) := by
  have hroom : hasRoom 32 0 = true := by decide
  rw [vsprintkLoop]
  simp [Formatter.start, Formatter.peek, Formatter.next, hroom, memOf, resultFormat, chr, conversion,
    vsprintkConv, vaInt, Formatter.arg, lowInt]

/-- The end of the line, and the end of the format. -/
theorem vsprintkLoop_newline {s : Formatter} (hp : s.p = 2) (hw : s.w + 2 < 32) :
    ∃ t, vsprintkLoop (memOf resultFormat) mem (fun _ ↦ res) 32 31 s = some t ∧
      t.out = (s.put (chr '\n')).out ∧ t.w = (s.put (chr '\n')).w := by
  have hroom : hasRoom 32 s.w = true := hasRoom_iff.mpr (by omega)
  have hroom' : hasRoom 32 (s.w + 1) = true := hasRoom_iff.mpr (by omega)
  obtain ⟨out, w, p, a, written, fmtRead, argRead⟩ := s
  dsimp only at hp hroom hroom'
  subst hp
  simp [vsprintkLoop, Formatter.peek, Formatter.next, hroom, hroom', Formatter.put, memOf,
    resultFormat, chr]

/-- The text in the buffer. -/
theorem vsprintk_result (mem : BitVec 64 → Byte) (buf : ℕ → Byte) (res : U64) :
    ∃ s, vsprintk (memOf resultFormat) mem (fun _ ↦ res) 32 32 buf = some s ∧
      s.text = signedText (lowInt res).toInt ++ [chr '\n'] ∧ s.w < 32 ∧ s.out s.w = 0 := by
  have hlen := length_signedText_lowInt res
  obtain ⟨hout, hin⟩ : Emits 32 _ _ _ := putSigned_emits (fun _ ↦ hasRoom_iff) (lowInt res)
    ⟨buf, 0, 2, 1, [], [1, 0, 0], [0]⟩
  have hstart : Formatter.text ⟨buf, 0, 2, 1, [], [1, 0, 0], [0]⟩ = [] := rfl
  have htext := hout.text
  have hw := hout.w_eq
  dsimp only at htext hw
  rw [hstart, List.nil_append, List.take_of_length_le (by omega)] at htext
  have hp : (putSigned (hasRoom 32) (lowInt res) ⟨buf, 0, 2, 1, [], [1, 0, 0], [0]⟩).p = 2 := hin.p
  have hloop : vsprintkLoop (memOf resultFormat) mem (fun _ ↦ res) 32 32 (.start buf) = _ :=
    vsprintkLoop_number
  generalize putSigned (hasRoom 32) (lowInt res) ⟨buf, 0, 2, 1, [], [1, 0, 0], [0]⟩ = s₁
    at htext hw hp hloop
  obtain ⟨t, ht, htout, htw⟩ : ∃ t, vsprintkLoop (memOf resultFormat) mem (fun _ ↦ res) 32 31 s₁ =
      some t ∧ t.out = (s₁.put (chr '\n')).out ∧ t.w = (s₁.put (chr '\n')).w :=
    vsprintkLoop_newline hp (by omega)
  have hlast : t.w = s₁.w + 1 := htw
  have httext : t.text = s₁.text ++ [chr '\n'] := by
    rw [← Formatter.text_put, Formatter.text, htout, htw]
    rfl
  refine ⟨t.terminate, ?_, ?_, ?_, Function.update_self ..⟩
  · rw [vsprintk, hloop, ht]
    rfl
  · rw [Formatter.text_terminate, httext, htext]
  · change t.w < 32
    omega

/-- What is printed of a result is the text of its low half. -/
theorem printResult_eq (mem : BitVec 64 → Byte) (buf : ℕ → Byte) (res : U64) :
    printResult mem buf res = some (signedText (lowInt res).toInt ++ [chr '\n']) := by
  obtain ⟨s, hs, htext, hw, hnul⟩ := vsprintk_result mem buf res
  rw [printResult, hs, Option.map_some]
  have hsplit : (List.range 32).map s.out =
      s.text ++ 0 :: (List.range' (s.w + 1) (32 - (s.w + 1))).map s.out := by
    have hrange : List.range 32 = List.range s.w ++ s.w :: List.range' (s.w + 1) (32 - (s.w + 1)) := by
      rw [← List.range'_succ, List.range_eq_range', List.range_eq_range',
        show 32 = s.w + (32 - (s.w + 1) + 1) by omega, ← List.range'_append_1, Nat.zero_add,
        show s.w + (32 - (s.w + 1) + 1) - (s.w + 1) = 32 - (s.w + 1) by omega]
    rw [hrange, List.map_append, List.map_cons, hnul]
    rfl
  rw [hsplit, htext, List.takeWhile_append_of_pos]
  · rw [List.takeWhile_cons_of_neg (by simp), List.append_nil]
  · intro b hb
    obtain hmem | hmem := List.mem_append.mp hb
    · simpa using ne_zero_of_mem_signedText hmem
    · obtain rfl := List.mem_singleton.mp hmem
      decide

/-! ### Main result -/

/-- A run that leaves a result is the run of a chunk that ends with an expression. -/
theorem lastExpr_of_result {out : VmOutcome} (hrun : nocVmRun reg env fuel chunk stack = some out)
    (hresult : out.result = some res) : chunk.lastExpr = true := by
  unfold nocVmRun at hrun
  split at hrun
  · rw [← Option.some.inj hrun] at hresult
    exact absurd hresult nofun
  · split at hrun
    · exact absurd hrun nofun
    · rename_i stop _
      rw [← Option.some.inj hrun] at hresult
      cases stop with
      | halt s =>
        by_contra hnone
        exact absurd (hresult.symm.trans (if_neg hnone)) nofun
      | error e => exact absurd hresult nofun
      | trap => exact absurd hresult nofun

theorem nocExecLine_eq {out : VmOutcome} (hcompile : nocCompile os reg stmts = (reg', .ok chunk))
    (hrun : nocVmRun reg' env fuel chunk stack = some out) (hresult : out.result = some res)
    (hres : res ≠ 0) (mem : BitVec 64 → Byte) (buf : ℕ → Byte) :
    nocExecLine os reg env fuel stmts stack mem buf =
      some (signedText (lowInt res).toInt ++ [chr '\n']) := by
  have hlast := lastExpr_of_result hrun hresult
  rw [nocExecLine, hcompile]
  simp only [hrun, hresult, hlast, hres, ne_eq, not_false_eq_true, and_self, if_true]
  exact printResult_eq mem buf res

/-- A line that is accepted and runs to a result other than zero prints the decimal text of the result
exactly if the result is in the range of an `int`. -/
theorem nocExecLine_prints_iff {out : VmOutcome}
    (hcompile : nocCompile os reg stmts = (reg', .ok chunk))
    (hrun : nocVmRun reg' env fuel chunk stack = some out) (hresult : out.result = some res)
    (hres : res ≠ 0) (mem : BitVec 64 → Byte) (buf : ℕ → Byte) :
    nocExecLine os reg env fuel stmts stack mem buf =
        some (signedText res.toInt ++ [chr '\n']) ↔ -2 ^ 31 ≤ res.toInt ∧ res.toInt < 2 ^ 31 := by
  rw [nocExecLine_eq hcompile hrun hresult hres, Option.some.injEq, List.append_left_inj,
    signedText_injective.eq_iff, lowInt_eq_iff]

/-- The result of the line that is the literal `v`. -/
def literalResult (v : U64) : Option U64 :=
  match nocCompile ampleOs userTable [.expr (.lit v)] with
  | (reg', .ok chunk) => (nocVmRun reg' quietEnv 9 chunk fun _ ↦ 0).bind VmOutcome.result
  | (_, .error _) => none

theorem literalResult_runs {v : U64} (h : literalResult v = some res) : ∃ reg' chunk out,
    nocCompile ampleOs userTable [.expr (.lit v)] = (reg', .ok chunk) ∧
      nocVmRun reg' quietEnv 9 chunk (fun _ ↦ 0) = some out ∧ out.result = some res := by
  unfold literalResult at h
  split at h
  · rename_i reg' chunk hcompile
    obtain ⟨out, hrun, hresult⟩ := Option.bind_eq_some_iff.mp h
    exact ⟨reg', chunk, out, hcompile, hrun, hresult⟩
  · exact absurd h nofun

/-- The line `7;`. -/
theorem nocExecLine_prints_iff_seven :
    nocExecLine ampleOs userTable quietEnv 9 [.expr (.lit 7)] (fun _ ↦ 0) (fun _ ↦ 0) (fun _ ↦ 0) =
        some (signedText (7 : U64).toInt ++ [chr '\n']) ↔
      -2 ^ 31 ≤ (7 : U64).toInt ∧ (7 : U64).toInt < 2 ^ 31 := by
  obtain ⟨reg', chunk, out, hcompile, hrun, hresult⟩ :=
    literalResult_runs (show literalResult 7 = some 7 by decide +kernel)
  exact nocExecLine_prints_iff hcompile hrun hresult (by decide) _ _

/-- The line `5000000000;` has the result 5000000000 and prints something else. -/
theorem nocExecLine_misprints :
    literalResult 5000000000 = some 5000000000 ∧
      nocExecLine ampleOs userTable quietEnv 9 [.expr (.lit 5000000000)] (fun _ ↦ 0) (fun _ ↦ 0)
          (fun _ ↦ 0) ≠ some (signedText 5000000000 ++ [chr '\n']) := by
  have hliteral : literalResult 5000000000 = some 5000000000 := by decide +kernel
  obtain ⟨reg', chunk, out, hcompile, hrun, hresult⟩ := literalResult_runs hliteral
  refine ⟨hliteral, ?_⟩
  rw [nocExecLine_eq hcompile hrun hresult (by decide), Ne, Option.some.injEq, List.append_left_inj,
    signedText_injective.eq_iff]
  decide

end NoOsKernel.Noc
