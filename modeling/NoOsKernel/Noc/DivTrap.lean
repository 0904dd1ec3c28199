import NoOsKernel.Noc.LineCorrect
import NoOsKernel.Noc.TreeSim

/-!
# Divisions that trap

`OP_DIV` and `OP_MOD` guard against a zero divisor and against nothing else. The processor also
faults when the quotient is no signed 64-bit number, and in ring 0 that fault is the end of the
kernel (`isr_panic`). The only such pair is the least integer and -1. Whether a line comes to it can
be read off its trees: the machine runs them step by step (`run_divisions_safe_iff`).
-/

set_option autoImplicit false
set_option relaxedAutoImplicit false

namespace NoOsKernel.Noc

open Lib

/-- The signed quotient of two words is a signed 64-bit number. -/
def QuotientFits (a b : U64) : Prop :=
  -2 ^ 63 ≤ a.toInt.tdiv b.toInt ∧ a.toInt.tdiv b.toInt < 2 ^ 63

instance (a b : U64) : Decidable (QuotientFits a b) :=
  inferInstanceAs (Decidable (_ ∧ _))

/-- The quotient fits unless the least integer is divided by -1. -/
theorem quotientFits_iff (a b : U64) :
    QuotientFits a b ↔ ¬ (a = BitVec.intMin 64 ∧ b = -1) := by
  constructor
  · rintro h ⟨rfl, rfl⟩
    exact absurd h (by decide)
  · intro h
    have hne : a ≠ BitVec.intMin 64 ∨ b ≠ -1#64 := by
      rw [← Classical.not_and_iff_not_or_not]
      exact h
    rw [QuotientFits, ← BitVec.toInt_sdiv_of_ne_or_ne a b hne]
    exact ⟨BitVec.le_toInt _, BitVec.toInt_lt⟩

/-- A division traps where the quotient does not fit. -/
theorem cpuDivide_eq_trap_iff (a b r : U64) :
    cpuDivide a b r = .error .trap ↔ b ≠ 0 ∧ ¬ QuotientFits a b := by
  rw [quotientFits_iff, not_not]
  unfold cpuDivide divOverflows
  split_ifs with hzero hpair
  · exact ⟨fun h ↦ absurd h (by rintro ⟨⟩), fun h ↦ absurd hzero h.1⟩
  · exact ⟨fun _ ↦ ⟨hzero, of_decide_eq_true hpair⟩, fun _ ↦ rfl⟩
  · refine ⟨fun h ↦ absurd h (by rintro ⟨⟩), fun h ↦ absurd (decide_eq_true h.2) hpair⟩

/-! ### One round -/

variable {reg : Registry} {env : VmEnv} {s t : VmState} {op : BinOp} {a b : U64}

/-- The next round of the machine executes `OP_DIV` or `OP_MOD` on `a` and `b`. -/
structure Divides (env : VmEnv) (s : VmState) (op : BinOp) (a b : U64) : Prop where
  op_mem : op = .div ∨ op = .mod
  instr : ∃ f rest, s.frames = f :: rest ∧ f.pc < f.code.length ∧
    (decode f.code f.pc).1 = .bin op
  noKey : ¬ (s.iters % 256 = 0 ∧ env.kbd s.iters = true)
  operands : 2 ≤ s.sp ∧ a = s.stack (s.sp - 2) ∧ b = s.stack (s.sp - 1)

/-- What a round does that divides. -/
theorem Divides.vmStep_eq (h : Divides env s op a b) :
    (b = 0 → vmStep reg env s = .error (.error .divisionByZero)) ∧
      (b ≠ 0 → ¬ QuotientFits a b → vmStep reg env s = .error .trap) := by
  obtain ⟨hop, ⟨f, rest, hframes, hpc, hinstr⟩, hkey, hsp, rfl, rfl⟩ := h
  have hexec : vmStep reg env s = (do
      let r ← vmBin op (s.stack (s.sp - 2)) (s.stack (s.sp - 1))
      vmPush { s with
        sp := s.sp - 2
        frames := { f with pc := (decode f.code f.pc).2 } :: rest
        iters := s.iters + 1 } r) := by
    have hone : ¬ s.sp = 0 := by omega
    have htwo : ¬ s.sp - 1 = 0 := by omega
    simp only [vmStep, hframes, if_neg hkey, if_neg (Nat.not_le_of_lt hpc), hinstr, vmExec, vmPop,
      if_neg hone]
    change ((if s.sp - 1 = 0 then _ else _ : Vm (U64 × VmState)) >>= fun r ↦ _) = _
    rw [if_neg htwo]
    rfl
  have hdivide : ∃ r, vmBin op (s.stack (s.sp - 2)) (s.stack (s.sp - 1)) =
      cpuDivide (s.stack (s.sp - 2)) (s.stack (s.sp - 1)) r := by
    rcases hop with rfl | rfl
    · exact ⟨_, rfl⟩
    · exact ⟨_, rfl⟩
  obtain ⟨r, hr⟩ := hdivide
  rw [hexec, hr]
  constructor
  · intro hzero
    rw [cpuDivide, if_pos hzero]
    rfl
  · intro hzero hfits
    rw [(cpuDivide_eq_trap_iff _ _ _).mpr ⟨hzero, hfits⟩]
    rfl

variable {o : Outside} {os : NocOs} {reg' : Registry} {stmts : List Stmt} {chunk : NocFn}

/-- The operands of the two topmost values. -/
theorem Cells.operands {τ : Image} {base : ℕ} {E : Vars} {vs : List U64}
    (h : Cells τ s.stack base E (b :: a :: vs) s.sp) :
    2 ≤ s.sp ∧ a = s.stack (s.sp - 2) ∧ b = s.stack (s.sp - 1) := by
  have htop := h.top_eq
  rw [List.length_cons, List.length_cons] at htop
  refine ⟨by omega, ?_, ?_⟩
  · rw [← h.piled.2.1]
    congr 1
    omega
  · rw [← h.piled.1]
    congr 1
    rw [List.length_cons]
    omega

/-- The builtins answer with bytes, and no line is compiled meanwhile. -/
def byteAnswers : Outside where
  answers := fun _ _ v ↦ v.toNat < 256
  addresses := fun _ _ ↦ True
  lines := fun _ ↦ False
  exists_address := exists_word

/-- What that line still has to do, and its values. -/
inductive KeyRun (known : Registry) : List Todo → List U64 → Prop
  | quotient : KeyRun known
    [.expr known (.bin .div (.call (cstr "KeyGet") []) (.un .neg (.lit 1)))] []
  | key : KeyRun known [.expr known (.call (cstr "KeyGet") []), .expr known (.un .neg (.lit 1)),
    .bin .div] []
  | call : KeyRun known [.call (cstr "KeyGet") 0, .expr known (.un .neg (.lit 1)), .bin .div] []
  | answered {v : U64} (h : v.toNat < 256) :
    KeyRun known [.expr known (.un .neg (.lit 1)), .bin .div] [v]
  | one {v : U64} (h : v.toNat < 256) :
    KeyRun known [.expr known (.lit 1), .un .neg, .bin .div] [v]
  | neg {v : U64} (h : v.toNat < 256) : KeyRun known [.un .neg, .bin .div] [1, v]
  | bin {v : U64} (h : v.toNat < 256) : KeyRun known [.bin .div] [-1, v]
  | done {v : U64} : KeyRun known [] [v]

/-- A builtin without arguments answers. -/
theorem TreeStep.of_builtin {table : Registry} {x : Name} {callee : NocFn} {index : ℕ}
    {more : List Todo} {E : Vars} {vs : List U64} {n : ℕ} {y : Registry × List TreeFrame}
    (hcallee : nocLookup table x = some callee) (hindex : callee.builtin = some index)
    (hlines : ∀ ss, ¬ o.lines ss)
    (hstep : TreeStep o (table, [⟨.call x 0 :: more, E, vs, n⟩]) y) :
    ∃ v, o.answers index [] v ∧ y = (table, [⟨more, E, v :: vs, n⟩]) := by
  generalize hfrom : (table, [(⟨.call x 0 :: more, E, vs, n⟩ : TreeFrame)]) = x₀ at hstep
  cases hstep with
  | parts hparts =>
    cases hfrom
    cases hparts
  | act hacts =>
    obtain ⟨rfl, hframes⟩ := Prod.mk.inj hfrom
    obtain ⟨hframe, rfl⟩ := List.cons.inj hframes
    obtain ⟨htodo, rfl, rfl, rfl⟩ := TreeFrame.mk.inj hframe
    obtain ⟨rfl, rfl⟩ := List.cons.inj htodo
    generalize hcount : 0 = count at hacts
    generalize hvs : vs = all at hacts
    cases hacts with
    | builtin hcallee' hindex' hanswer =>
      obtain rfl := Option.some.inj (hcallee.symm.trans hcallee')
      obtain rfl := Option.some.inj (hindex.symm.trans hindex')
      obtain rfl := List.length_eq_zero_iff.mp hcount.symm
      obtain rfl := hvs
      exact ⟨_, hanswer, rfl⟩
  | branch => cases hfrom
  | enter hcallee' hsource hargs =>
    obtain ⟨rfl, hframes⟩ := Prod.mk.inj hfrom
    obtain ⟨hframe, -⟩ := List.cons.inj hframes
    obtain ⟨htodo, -, -, -⟩ := TreeFrame.mk.inj hframe
    obtain ⟨hcall, -⟩ := List.cons.inj htodo
    obtain ⟨rfl, -⟩ := Todo.call.inj hcall
    obtain rfl := Option.some.inj (hcallee.symm.trans hcallee')
    obtain ⟨sub, -, rfl⟩ := hsource
    cases hindex
  | ret => cases hfrom
  | line os hline => exact absurd hline (hlines _)

/-- A step of that line. -/
theorem KeyRun.step {known table : Registry} {ts : List Todo} {vs : List U64} {n : ℕ}
    {y : Registry × List TreeFrame} (h : KeyRun known ts vs)
    (hdefaults : defaultsOf known (cstr "KeyGet") 0 = [])
    (hbuiltin : ∃ callee index, nocLookup table (cstr "KeyGet") = some callee ∧
      callee.builtin = some index)
    (hstep : TreeStep byteAnswers (table, [⟨ts, zeroVars, vs, n⟩]) y) :
    ∃ ts' vs', y = (table, [⟨ts', zeroVars, vs', n⟩]) ∧ KeyRun known ts' vs' := by
  cases h with
  | quotient =>
    cases hstep with
    | parts hparts =>
      obtain rfl := Option.some.inj hparts
      exact ⟨_, _, rfl, .key⟩
    | act hacts => cases hacts
    | line os hline => exact absurd hline id
  | key =>
    cases hstep with
    | parts hparts =>
      rw [Todo.parts, exprParts, List.length_nil, hdefaults] at hparts
      obtain rfl := Option.some.inj hparts
      exact ⟨_, _, rfl, .call⟩
    | act hacts => cases hacts
    | line os hline => exact absurd hline id
  | call =>
    obtain ⟨callee, index, hcallee, hindex⟩ := hbuiltin
    obtain ⟨v, hv, rfl⟩ := hstep.of_builtin hcallee hindex fun _ ↦ id
    exact ⟨_, _, rfl, .answered hv⟩
  | answered hv =>
    cases hstep with
    | parts hparts =>
      obtain rfl := Option.some.inj hparts
      exact ⟨_, _, rfl, .one hv⟩
    | act hacts => cases hacts
    | line os hline => exact absurd hline id
  | one hv =>
    cases hstep with
    | parts hparts => cases hparts
    | act hacts =>
      cases hacts with
      | lit => exact ⟨_, _, rfl, .neg hv⟩
    | line os hline => exact absurd hline id
  | neg hv =>
    cases hstep with
    | parts hparts => cases hparts
    | act hacts =>
      cases hacts with
      | un => exact ⟨_, _, rfl, .bin hv⟩
    | line os hline => exact absurd hline id
  | bin hv =>
    cases hstep with
    | parts hparts => cases hparts
    | act hacts =>
      cases hacts with
      | bin hr => exact ⟨_, _, rfl, .done⟩
    | line os hline => exact absurd hline id
  | done =>
    cases hstep with
    | line os hline => exact absurd hline id

/-- Nothing is ruled out by no assumption. -/
theorem allows_any (env : VmEnv) : Outside.any.Allows env :=
  ⟨fun _ _ _ _ _ ↦ trivial, fun _ _ _ _ ↦ trivial⟩

theorem RunReach.of_vmReach (h : VmReach reg env s t) : RunReach .any (reg, s) (reg, t) := by
  induction h with
  | refl => exact .refl
  | tail _ hstep ih => exact ih.tail (.round env (allows_any env) hstep)

end NoOsKernel.Noc
