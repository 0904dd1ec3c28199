import NoOsKernel.Lib.StepIndex
import NoOsKernel.Noc.Layout

/-!
# Operand depth of compiled code

The machine reduced to its control flow: a position in the code of one function and how many
operands lie above its locals at least. `Legal` says that an instruction finds its tables in order.
Code that the compiler has laid out never runs out of operands: an expression adds at least one, a
statement keeps what is there. Some expressions leave more than one behind, so that the depth is a
lower bound and the results are monotone in it.
-/

set_option autoImplicit false
set_option relaxedAutoImplicit false

namespace NoOsKernel.Noc

open Lib

/-- The operands an instruction takes from the stack. -/
def Instr.operands : Instr → ℕ
  | .dup => 1
  | .pop => 1
  | .store _ => 1
  | .call _ count => count
  | .ret => 1
  | .jmpf _ => 1
  | .jmpt _ => 1
  | .bin _ => 2
  | .not => 1
  | .neg => 1
  | .bnot => 1
  | _ => 0

/-- The operands an instruction leaves in their place. -/
def Instr.results : Instr → ℕ
  | .push _ => 1
  | .pushStr _ => 1
  | .dup => 2
  | .load _ => 1
  | .call _ _ => 1
  | .bin _ => 1
  | .not => 1
  | .neg => 1
  | .bnot => 1
  | _ => 0

/-- The positions behind an instruction in the same function. -/
def Instr.targets (i : Instr) (q : ℕ) : List ℕ :=
  match i with
  | .jmp t => [t]
  | .jmpf t => [t, q]
  | .jmpt t => [t, q]
  | .ret => []
  | .halt => []
  | .unknown _ => []
  | _ => [q]

/-- An instruction that finds its local, its string or its function, and returns from functions
only. `known` are the names that can be looked up. -/
def Legal (known : Name → Prop) (nlocals : ℕ) (strings : List Name) (inFn : Bool) :
    Instr → Prop
  | .pushStr si => si < strings.length
  | .load slot => slot < nlocals
  | .store slot => slot < nlocals
  | .call si _ => ∃ name, strings[si]? = some name ∧ known name
  | .ret => inFn = true
  | .unknown _ => False
  | _ => True

/-- The control flow of one function: from a position and a depth to the next. -/
def DepthNext (code : List Byte) (s t : ℕ × ℕ) : Prop :=
  t.1 ∈ (decode code s.1).1.targets (decode code s.1).2 ∧
    t.2 = s.2 - (decode code s.1).1.operands + (decode code s.1).1.results

/-- The instruction at a position is legal and has its operands. -/
def DepthOk (known : Name → Prop) (nlocals : ℕ) (strings : List Name) (inFn : Bool)
    (code : List Byte) (s : ℕ × ℕ) : Prop :=
  s.1 < code.length ∧ Legal known nlocals strings inFn (decode code s.1).1 ∧
    (decode code s.1).1.operands ≤ s.2

/-! ### Laid out code -/

variable {known : Name → Prop} {reg : Registry} {τ : Image} {n d p q : ℕ} {i : Instr}

/-- Position `p` with `d` operands is safe for `n` steps in an image. -/
def OkFor (known : Name → Prop) (τ : Image) (n p d : ℕ) : Prop :=
  SafeFor (DepthOk known τ.syms.length τ.strings τ.inFn τ.code) (DepthNext τ.code) n (p, d)

/-- More operands do no harm. -/
theorem OkFor.mono {d' : ℕ} (h : OkFor known τ n p d) (hd : d ≤ d') : OkFor known τ n p d' := by
  refine SafeFor.of_simulation (R := fun s t ↦ s.1 = t.1 ∧ s.2 ≤ t.2) (s := (p, d)) ?_ ?_
    ⟨rfl, hd⟩ h
  · rintro ⟨p, d⟩ ⟨p', d'⟩ ⟨hp, hd⟩ ⟨hlt, hlegal, hle⟩
    obtain rfl : p = p' := hp
    exact ⟨hlt, hlegal, hle.trans hd⟩
  · rintro ⟨p, d⟩ ⟨p', d'⟩ ⟨r, e⟩ ⟨hp, hd⟩ ⟨htarget, hdepth⟩
    obtain rfl : p = p' := hp
    refine ⟨(r, d - (decode τ.code p).1.operands + (decode τ.code p).1.results),
      ⟨htarget, rfl⟩, rfl, ?_⟩
    simp only at hd hdepth ⊢
    omega

/-- The step back over an instruction, with one step less left behind it. -/
theorem InstrAt.okFor_succ (h : InstrAt τ.code p i q)
    (hlegal : Legal known τ.syms.length τ.strings τ.inFn i) (hd : i.operands ≤ d)
    (htargets : ∀ t ∈ i.targets q, OkFor known τ n t (d - i.operands + i.results)) :
    OkFor known τ (n + 1) p d := by
  have hdecode := h.decode
  refine ⟨⟨h.lt_length, ?_, ?_⟩, ?_⟩
  · rwa [hdecode]
  · rwa [hdecode]
  · rintro ⟨t, e⟩ ⟨ht, he⟩
    simp only [hdecode] at ht he
    rw [he]
    exact htargets t ht

/-- The step back over an instruction. -/
theorem InstrAt.okFor (h : InstrAt τ.code p i q)
    (hlegal : Legal known τ.syms.length τ.strings τ.inFn i) (hd : i.operands ≤ d)
    (htargets : ∀ t ∈ i.targets q, OkFor known τ n t (d - i.operands + i.results)) :
    OkFor known τ n p d :=
  SafeFor.of_succ (h.okFor_succ hlegal hd htargets)

/-- The step back over an instruction that is no jump. -/
theorem InstrAt.okFor_of_straight {d' : ℕ} (h : InstrAt τ.code p i q) (hi : i.targets q = [q])
    (hlegal : Legal known τ.syms.length τ.strings τ.inFn i) (hd : i.operands ≤ d)
    (hq : OkFor known τ n q d') (hd' : d' ≤ d - i.operands + i.results) :
    OkFor known τ n p d := by
  refine h.okFor hlegal hd fun t ht ↦ ?_
  rw [hi, List.mem_singleton] at ht
  rw [ht]
  exact hq.mono hd'

/-- The step back over a conditional jump. -/
theorem InstrAt.okFor_of_branch {t : ℕ} (h : InstrAt τ.code p i q) (hi : i = .jmpf t ∨ i = .jmpt t)
    (ht : OkFor known τ n t d) (hq : OkFor known τ n q d) : OkFor known τ n p (d + 1) := by
  rcases hi with rfl | rfl
  all_goals
    refine h.okFor trivial (Nat.le_add_left 1 d) fun r hr ↦ ?_
    rcases List.mem_cons.mp hr with rfl | hr
    · exact ht
    · rw [List.mem_singleton.mp hr]
      exact hq

/-- The step back over a jump; its target needs one step less. -/
theorem InstrAt.okFor_of_jmp {t : ℕ} (h : InstrAt τ.code p (.jmp t) q) (ht : OkFor known τ n t d) :
    OkFor known τ (n + 1) p d := by
  refine h.okFor_succ trivial (Nat.zero_le d) fun r hr ↦ ?_
  rw [List.mem_singleton.mp hr]
  exact ht

theorem pushes_okFor {vs : List U64} (h : SeqAt τ.code p (vs.map .push) q)
    (hq : OkFor known τ n q (d + vs.length)) : OkFor known τ n p d := by
  induction vs generalizing p d with
  | nil =>
    obtain rfl : p = q := h
    exact hq
  | cons v vs ih =>
    obtain ⟨m, hi, his⟩ := h
    have hm : OkFor known τ n m (d + 1) := by
      refine ih his (hq.mono ?_)
      rw [List.length_cons]
      omega
    exact hi.okFor_of_straight rfl trivial (Nat.zero_le d) hm le_rfl

theorem CallAt.okFor (hknown : ∀ name, Known reg name → known name) {f : Name} {nargs : ℕ}
    (h : CallAt reg τ f nargs p q)    (hq : OkFor known τ n q (d + 1)) : OkFor known τ n p (d + nargs) := by
  obtain ⟨callee, defaults, m, si, hcallee, -, hseq, hsi, hi⟩ := h
  have hlegal : Legal known τ.syms.length τ.strings τ.inFn (.call si (nargs + defaults.length)) :=
    ⟨f, hsi, hknown f (known_iff.mpr ⟨callee, hcallee⟩)⟩
  refine pushes_okFor hseq (hi.okFor_of_straight rfl hlegal ?_ hq ?_)
  · change nargs + defaults.length ≤ _
    omega
  · change d + 1 ≤ d + nargs + defaults.length - (nargs + defaults.length) + 1
    omega

mutual

/-- An expression adds an operand. -/
theorem ExprAt.okFor (hknown : ∀ name, Known reg name → known name) :
    ∀ {e : Expr} {p q n d : ℕ}, ExprAt reg τ e p q →
      OkFor known τ n q (d + 1) → OkFor known τ n p d
  | .lit _, _, _, _, d, h, hq =>
    InstrAt.okFor_of_straight h rfl trivial (Nat.zero_le d) hq le_rfl
  | .str _, _, _, _, d, ⟨_, hsi, hi⟩, hq =>
    hi.okFor_of_straight rfl (List.getElem?_eq_some_iff.mp hsi).1 (Nat.zero_le d) hq le_rfl
  | .var _, _, _, _, d, ⟨_, hs, hi⟩, hq =>
    hi.okFor_of_straight rfl (resolveVar_lt hs) (Nat.zero_le d) hq le_rfl
  | .call _ _, _, _, _, _, ⟨_, hargs, hcall⟩, hq => ArgsAt.okFor hknown hargs (hcall.okFor hknown hq)
  | .logic isAnd a b, p, q, n, d, ⟨j₁, m, j₂, l, j₃, r, ha, hj₁, hb, hj₂, hp₁, hj₃, hp₂⟩, hq => by
    have hbranch : ∀ t, logicJump isAnd t = .jmpf t ∨ logicJump isAnd t = .jmpt t := by
      cases isAnd
      · exact fun _ ↦ Or.inr rfl
      · exact fun _ ↦ Or.inl rfl
    have hr : OkFor known τ n r (d + 1) :=
      hp₂.okFor_of_straight rfl trivial (Nat.zero_le _) hq (Nat.le_succ (d + 1))
    have hl : OkFor known τ n l d :=
      hp₁.okFor_of_straight rfl trivial (Nat.zero_le d) (SafeFor.of_succ (hj₃.okFor_of_jmp hr))
        le_rfl
    exact ExprAt.okFor hknown ha (hj₁.okFor_of_branch (hbranch l) hl
      (ExprAt.okFor hknown hb (hj₂.okFor_of_branch (hbranch l) hl hl)))
  | .bin _ _ _, _, _, _, d, ⟨_, _, ha, hb, hi⟩, hq =>
    ExprAt.okFor hknown ha (ExprAt.okFor hknown hb
      (hi.okFor_of_straight rfl trivial (Nat.le_add_left 2 d) hq le_rfl))
  | .un .neg _, _, _, _, d, ⟨_, ha, hi⟩, hq =>
    ExprAt.okFor hknown ha (hi.okFor_of_straight rfl trivial (Nat.le_add_left 1 d) hq le_rfl)
  | .un .not _, _, _, _, d, ⟨_, ha, hi⟩, hq =>
    ExprAt.okFor hknown ha (hi.okFor_of_straight rfl trivial (Nat.le_add_left 1 d) hq le_rfl)
  | .un .bnot _, _, _, _, d, ⟨_, ha, hi⟩, hq =>
    ExprAt.okFor hknown ha (hi.okFor_of_straight rfl trivial (Nat.le_add_left 1 d) hq le_rfl)
  | .preinc x plus, p, q, n, d,
      ⟨s, hs, m₁, h₁, m₂, h₂, m₃, h₃, m₄, h₄, m₅, h₅, _, h₆, rfl⟩, hq => by
    have hslot := resolveVar_lt hs
    have hstore : OkFor known τ n m₅ (d + 2 + 1) :=
      h₆.okFor_of_straight rfl hslot (Nat.le_add_left 1 _) hq (Nat.le_succ (d + 1))
    have hdup : OkFor known τ n m₄ (d + 1 + 1) :=
      h₅.okFor_of_straight rfl trivial (Nat.le_add_left 1 _) hstore le_rfl
    have hadd : OkFor known τ n m₃ (d + 1 + 2) :=
      h₄.okFor_of_straight rfl trivial (Nat.le_add_left 2 _) hdup le_rfl
    have hpush : OkFor known τ n m₂ (d + 2) :=
      h₃.okFor_of_straight rfl trivial (Nat.zero_le _) hadd le_rfl
    have hload : OkFor known τ n m₁ (d + 1) :=
      h₂.okFor_of_straight rfl hslot (Nat.zero_le _) hpush le_rfl
    exact h₁.okFor_of_straight rfl hslot (Nat.zero_le _) hload le_rfl
  | .postinc x plus, p, q, n, d, ⟨s, hs, m₁, h₁, m₂, h₂, m₃, h₃, m₄, h₄, _, h₅, rfl⟩, hq => by
    have hslot := resolveVar_lt hs
    have hstore : OkFor known τ n m₄ (d + 1 + 1) :=
      h₅.okFor_of_straight rfl hslot (Nat.le_add_left 1 _) hq le_rfl
    have hadd : OkFor known τ n m₃ (d + 1 + 2) :=
      h₄.okFor_of_straight rfl trivial (Nat.le_add_left 2 _) hstore le_rfl
    have hpush : OkFor known τ n m₂ (d + 2) :=
      h₃.okFor_of_straight rfl trivial (Nat.zero_le _) hadd le_rfl
    have hdup : OkFor known τ n m₁ (d + 1) :=
      h₂.okFor_of_straight rfl trivial (Nat.le_add_left 1 _) hpush le_rfl
    exact h₁.okFor_of_straight rfl hslot (Nat.zero_le _) hdup le_rfl
  | .assign op x a, p, q, n, d, ⟨s, hs, h⟩, hq => by
    have hslot := resolveVar_lt hs
    cases hop : op.binOp with
    | none =>
      simp only [hop] at h
      obtain ⟨m, ha, m₁, h₁, _, h₂, rfl⟩ := h
      have hstore : OkFor known τ n m₁ (d + 1 + 1) :=
        h₂.okFor_of_straight rfl hslot (Nat.le_add_left 1 _) hq le_rfl
      have hdup : OkFor known τ n m (d + 1) :=
        h₁.okFor_of_straight rfl trivial (Nat.le_add_left 1 _) hstore le_rfl
      exact ExprAt.okFor hknown ha hdup
    | some bin =>
      simp only [hop] at h
      obtain ⟨m, m', hload, ha, m₁, h₁, m₂, h₂, _, h₃, rfl⟩ := h
      have hstore : OkFor known τ n m₂ (d + 1 + 1) :=
        h₃.okFor_of_straight rfl hslot (Nat.le_add_left 1 _) hq le_rfl
      have hdup : OkFor known τ n m₁ (d + 1) :=
        h₂.okFor_of_straight rfl trivial (Nat.le_add_left 1 _) hstore le_rfl
      have hbin : OkFor known τ n m' (d + 2) :=
        h₁.okFor_of_straight rfl trivial (Nat.le_add_left 2 _) hdup le_rfl
      exact hload.okFor_of_straight rfl hslot (Nat.zero_le _) (ExprAt.okFor hknown ha hbin) le_rfl

theorem ArgsAt.okFor (hknown : ∀ name, Known reg name → known name) :
    ∀ {es : List Expr} {p q n d : ℕ}, ArgsAt reg τ es p q →
      OkFor known τ n q (d + es.length) → OkFor known τ n p d
  | [], p, q, n, d, h, hq => by
    obtain rfl : p = q := h
    exact hq
  | e :: es, p, q, n, d, ⟨m, he, hes⟩, hq => by
    refine ExprAt.okFor hknown he (ArgsAt.okFor hknown hes (hq.mono ?_))
    rw [List.length_cons]
    omega

end

/-! ### Statements -/

section Statements

variable (hknown : ∀ name, Known reg name → known name)

include hknown

theorem DropAt.okFor {e : Expr} (h : DropAt reg τ e p q) (hq : OkFor known τ n q d) :
    OkFor known τ n p d := by
  obtain ⟨m, he, hi⟩ := h
  exact he.okFor hknown (hi.okFor_of_straight rfl trivial (Nat.le_add_left 1 d) hq le_rfl)

theorem DeclAt.okFor {x : Name} {init : Option Expr} (h : DeclAt reg τ x init p q)
    (hq : OkFor known τ n q d) : OkFor known τ n p d := by
  obtain ⟨slot, hslot, h⟩ := h
  cases init with
  | none =>
    obtain rfl : p = q := h
    exact hq
  | some e =>
    obtain ⟨m, he, hi⟩ := h
    have hlt := resolveVar_lt hslot
    exact he.okFor hknown (hi.okFor_of_straight rfl hlt (Nat.le_add_left 1 d) hq le_rfl)

theorem InitAt.okFor {init : ForInit} (h : InitAt reg τ init p q) (hq : OkFor known τ n q d) :
    OkFor known τ n p d := by
  cases init with
  | none =>
    obtain rfl : p = q := h
    exact hq
  | decl x type e => exact DeclAt.okFor hknown h hq
  | expr e => exact DropAt.okFor hknown h hq

theorem PostAt.okFor {post : Option Expr} (h : PostAt reg τ post p q) (hq : OkFor known τ n q d) :
    OkFor known τ n p d := by
  cases post with
  | none =>
    obtain rfl : p = q := h
    exact hq
  | some e => exact DropAt.okFor hknown h hq

theorem CondAt.okFor {cond : Option Expr} {stop : ℕ} (h : CondAt reg τ cond p stop q)
    (hstop : OkFor known τ n stop d) (hq : OkFor known τ n q d) : OkFor known τ n p d := by
  cases cond with
  | none =>
    obtain rfl : p = q := h
    exact hq
  | some e =>
    obtain ⟨j, he, hi⟩ := h
    exact he.okFor hknown (hi.okFor_of_branch (Or.inl rfl) hstop hq)

/-- A loop is safe when its rounds are: the jump back has used up a step. -/
theorem loop_okFor {cond : Option Expr} {j m : ℕ} (hcond : CondAt reg τ cond p q m)
    (hround : ∀ k, OkFor known τ k j d → OkFor known τ k m d) (hjmp : InstrAt τ.code j (.jmp p) q)
    (hq : OkFor known τ n q d) : OkFor known τ n p d := by
  induction n with
  | zero => exact trivial
  | succ n ih =>
    have hback : OkFor known τ (n + 1) j d := hjmp.okFor_of_jmp (ih (SafeFor.of_succ hq))
    exact hcond.okFor hknown hq (hround (n + 1) hback)

end Statements

mutual

/-- A statement keeps the operands below it. -/
theorem StmtAt.okFor (hknown : ∀ name, Known reg name → known name) :
    ∀ {s : Stmt} {syms : List (Name × NType)} {p q n d : ℕ}, StmtAt reg τ syms s p q →
      OkFor known τ n q d → OkFor known τ n p d
  | .expr _, _, _, _, _, _, h, hq => DropAt.okFor hknown h hq
  | .decl _ _ _, _, _, _, _, _, h, hq => DeclAt.okFor hknown h hq
  | .block _, _, _, _, _, _, h, hq => BlockAt.okFor hknown h hq
  | .ifThen _ _, _, _, _, _, _, ⟨_, hcond, ht⟩, hq =>
    hcond.okFor hknown hq (StmtAt.okFor hknown ht hq)
  | .ifElse _ _ _, _, _, _, _, _, ⟨_, _, _, hcond, ht, hj, he⟩, hq =>
    hcond.okFor hknown (StmtAt.okFor hknown he hq)
      (StmtAt.okFor hknown ht (SafeFor.of_succ (hj.okFor_of_jmp hq)))
  | .while _ _, _, _, _, _, _, ⟨_, _, hcond, hbody, hj⟩, hq =>
    loop_okFor hknown hcond (fun _ hk ↦ StmtAt.okFor hknown hbody hk) hj hq
  | .for _ _ _ _, _, _, _, _, _, ⟨_, _, _, _, hinit, hcond, hbody, hpost, hj⟩, hq =>
    hinit.okFor hknown (loop_okFor hknown hcond
      (fun _ hk ↦ StmtAt.okFor hknown hbody (hpost.okFor hknown hk)) hj hq)
  | .ret e, _, p, q, n, d, ⟨hin, m, hval, hi⟩, _ => by
    have hm : OkFor known τ n m (d + 1) :=
      hi.okFor hin (Nat.le_add_left 1 d) fun _ ht ↦ absurd ht List.not_mem_nil
    cases e with
    | none => exact InstrAt.okFor_of_straight hval rfl trivial (Nat.zero_le d) hm le_rfl
    | some e => exact ExprAt.okFor hknown hval hm
  | .func _ _ _ _, _, _, _, _, _, h, _ => absurd h id

theorem BlockAt.okFor (hknown : ∀ name, Known reg name → known name) :
    ∀ {ss : List Stmt} {syms : List (Name × NType)} {p q n d : ℕ}, BlockAt reg τ syms ss p q →
      OkFor known τ n q d → OkFor known τ n p d
  | [], _, p, q, n, d, h, hq => by
    obtain rfl : p = q := h
    exact hq
  | _ :: _, _, _, _, _, _, ⟨_, hs, hss⟩, hq =>
    StmtAt.okFor hknown hs (BlockAt.okFor hknown hss hq)

end

end NoOsKernel.Noc
