import NoOsKernel.Noc.ShortCircuit

/-!
# Prefix increments

`compile_expr` compiles the operand of a unary operator before it looks at the operator, and a
prefix `++` or `--` loads the variable again. Its code stores the right value and leaves it on top,
but over the old value, which nothing ever takes away: a statement `++x` or a clause `++x` of a
`for` leaves one operand behind each time it is executed.
-/

set_option autoImplicit false
set_option relaxedAutoImplicit false

namespace NoOsKernel.Noc

open Lib

variable {os : NocOs} {reg reg₀ : Registry} {env : VmEnv} {f : Frame} {rest : List Frame}
  {τ : Image} {c c' : CComp} {x : Name} {plus : Bool} {k p q top m j e : ℕ} {s t u : VmState}

/-! ### The expression -/

/-- A run of the code of `++x` or `--x`, where `k` is the slot of `x`. -/
structure PreincDone (f : Frame) (plus : Bool) (k : ℕ) (s t : VmState) : Prop where
  sp : t.sp = s.sp + 2
  first : t.stack s.sp = s.stack (f.vbase + k)
  second : t.stack (s.sp + 1) = s.stack (f.vbase + k) + incStep plus
  slot : t.stack (f.vbase + k) = s.stack (f.vbase + k) + incStep plus
  kept : ∀ i < s.sp, i ≠ f.vbase + k → t.stack i = s.stack i

theorem CodeRun.preinc (hrun : CodeRun reg env f rest p q s t) (hs : AtPc f rest p s)
    (hroom : f.vbase + f.nlocals ≤ s.sp)
    (hseq : SeqAt f.code p [.load k, .load k, .push (incStep plus), .bin .add, .dup, .store k] q) :
    AtPc f rest q t ∧ PreincDone f plus k s t := by
  obtain ⟨m₁, h₁, m₂, h₂, m₃, h₃, m₄, h₄, m₅, h₅, m₆, h₆, rfl⟩ := hseq
  have hlt₁ := h₁.lt
  have hlt₂ := h₂.lt
  have hlt₃ := h₃.lt
  have hlt₄ := h₄.lt
  have hlt₅ := h₅.lt
  have hlt₆ := h₆.lt
  obtain ⟨s₁, hs₁, hsp₁, hst₁, hrun⟩ := hrun.load hs le_rfl (by omega) h₁
  obtain ⟨s₂, hs₂, hsp₂, hst₂, hrun⟩ := hrun.load hs₁ (by omega) (by omega) h₂
  obtain ⟨s₃, hs₃, hsp₃, hst₃, hrun⟩ := hrun.push hs₂ (by omega) (by omega) h₃
  obtain ⟨s₄, hs₄, hsp₄, hst₄, hrun⟩ := hrun.add hs₃ (by omega) (by omega) h₄
  obtain ⟨s₅, hs₅, hsp₅, hst₅, hrun⟩ := hrun.dup hs₄ (by omega) (by omega) h₅
  obtain ⟨s₆, hs₆, hsp₆, hst₆, hlocal, hrun⟩ := hrun.store hs₅ (by omega) (by omega) h₆
  obtain rfl := hrun.eq_of_end hs₆
  -- the two loads, the sum over the second of them, and its copy that goes to the slot
  have hload : s₂.stack = Function.update (Function.update s.stack s.sp (s.stack (f.vbase + k)))
      (s.sp + 1) (s.stack (f.vbase + k)) := by
    rw [hst₂, hst₁, hsp₁, Function.update_of_ne (by omega)]
  have hsum : s₄.stack = Function.update s₃.stack (s.sp + 1)
      (s.stack (f.vbase + k) + incStep plus) := by
    rw [hst₄, show s₃.sp - 2 = s.sp + 1 by omega, show s₃.sp - 1 = s₂.sp by omega, hst₃,
      Function.update_self, Function.update_of_ne (by omega), hload, Function.update_self]
  have hstore : s₆.stack = Function.update s₅.stack (f.vbase + k)
      (s.stack (f.vbase + k) + incStep plus) := by
    rw [hst₆, show s₅.sp - 1 = s₄.sp by omega, hst₅, Function.update_self,
      show s₄.sp - 1 = s.sp + 1 by omega, hsum, Function.update_self]
  have hbelow : ∀ i < s.sp + 1, s₅.stack i = s₂.stack i := by
    intro i hi
    rw [hst₅, Function.update_of_ne (by omega), hsum, Function.update_of_ne (by omega), hst₃,
      Function.update_of_ne (by omega)]
  refine ⟨hs₆, by omega, ?_, ?_, ?_, fun i hi hne ↦ ?_⟩
  · rw [hstore, Function.update_of_ne (by omega), hbelow _ (by omega), hload,
      Function.update_of_ne (by omega), Function.update_self]
  · rw [hstore, Function.update_of_ne (by omega), hst₅, Function.update_of_ne (by omega), hsum,
      Function.update_self]
  · rw [hstore, Function.update_self]
  · rw [hstore, Function.update_of_ne hne, hbelow i (by omega), hload,
      Function.update_of_ne (by omega), Function.update_of_ne (by omega)]

/-- As a statement, and as the last clause of a `for`, it leaves one operand. -/
theorem DropAt.leaves_preinc (hcode : f.code = τ.code) (h : DropAt reg₀ τ (.preinc x plus) p q) :
    Leaves reg env f rest 0 1 p q := by
  obtain ⟨m, ⟨k, -, hseq⟩, hpop⟩ := h
  rw [← hcode] at hseq hpop
  have htwo : Leaves reg env f rest 0 2 p m := Leaves.nil.seq hseq le_rfl rfl
  have hlt := (Nat.le_of_add_right_le hseq.le).trans_lt hpop.lt
  exact htwo.andThen (hpop.leaves rfl) (Nat.le_of_add_right_le hseq.le) hpop.lt.le
    (Nat.le_succ 1)

/-! ### Loops -/

theorem DropAt.le {e : Expr} (h : DropAt reg₀ τ e p q) : p ≤ q := by
  obtain ⟨m, he, hpop⟩ := h
  exact (he.lt.trans hpop.lt).le

theorem DeclAt.le {init : Option Expr} (h : DeclAt reg₀ τ x init p q) : p ≤ q := by
  obtain ⟨k, -, h⟩ := h
  cases init with
  | none => exact Nat.le_of_eq h
  | some e =>
    obtain ⟨m, he, hstore⟩ := h
    exact (he.lt.trans hstore.lt).le

theorem InitAt.le {init : ForInit} (h : InitAt reg₀ τ init p q) : p ≤ q := by
  cases init with
  | none => exact Nat.le_of_eq h
  | decl x type e => exact DeclAt.le h
  | expr e => exact DropAt.le h

theorem CondAt.le {cond : Option Expr} {stop : ℕ} (h : CondAt reg₀ τ cond p stop q) : p ≤ q := by
  cases cond with
  | none => exact Nat.le_of_eq h
  | some e =>
    obtain ⟨j, he, hjump⟩ := h
    exact (he.lt.trans hjump.lt).le

theorem PostAt.le {post : Option Expr} (h : PostAt reg₀ τ post p q) : p ≤ q := by
  cases post with
  | none => exact Nat.le_of_eq h
  | some e => exact DropAt.le h

theorem RetAt.le {val : Option Expr} (h : RetAt reg₀ τ val p q) : p ≤ q := by
  cases val with
  | none => exact (InstrAt.lt h).le
  | some e => exact (ExprAt.lt h).le

mutual

/-- The code of a statement does not go back. -/
theorem StmtAt.le : ∀ {stmt : Stmt} {syms : List (Name × NType)} {p q : ℕ},
    StmtAt reg₀ τ syms stmt p q → p ≤ q
  | .expr _, _, _, _, h => DropAt.le h
  | .decl _ _ _, _, _, _, h => DeclAt.le h
  | .block _, _, _, _, h => BlockAt.le h
  | .ifThen _ _, _, _, _, ⟨_, hcond, ht⟩ => hcond.le.trans ht.le
  | .ifElse _ _ _, _, _, _, ⟨_, _, _, hcond, ht, hj, he⟩ =>
    hcond.le.trans (ht.le.trans (hj.lt.le.trans he.le))
  | .while _ _, _, _, _, ⟨_, _, hcond, hbody, hj⟩ => hcond.le.trans (hbody.le.trans hj.lt.le)
  | .for _ _ _ _, _, _, _, ⟨_, _, _, _, hinit, hcond, hbody, hpost, hj⟩ =>
    hinit.le.trans (hcond.le.trans (hbody.le.trans (hpost.le.trans hj.lt.le)))
  | .ret _, _, _, _, ⟨_, _, hval, hi⟩ => hval.le.trans hi.lt.le
  | .func _ _ _ _, _, _, _, h => absurd h id

theorem BlockAt.le : ∀ {body : List Stmt} {syms : List (Name × NType)} {p q : ℕ},
    BlockAt reg₀ τ syms body p q → p ≤ q
  | [], _, _, _, h => Nat.le_of_eq h
  | _ :: _, _, _, _, ⟨_, hfirst, hrest⟩ => hfirst.le.trans hrest.le

end

/-- Once around a loop: from `top` over its condition to `m`, from there to the jump at `j`, and
back. -/
def Lap (reg : Registry) (env : VmEnv) (f : Frame) (rest : List Frame) (top m j : ℕ)
    (s t : VmState) : Prop :=
  ∃ u v, CodeRun reg env f rest top m s u ∧ AtPc f rest m u ∧ CodeRun reg env f rest m j u v ∧
    vmStep reg env v = .ok t

/-- Some times around a loop. -/
def Laps (reg : Registry) (env : VmEnv) (f : Frame) (rest : List Frame) (top m j : ℕ) :
    ℕ → VmState → VmState → Prop
  | 0, s, t => s = t
  | n + 1, s, t => ∃ u, Lap reg env f rest top m j s u ∧ Laps reg env f rest top m j n u t

/-- The way into a loop, with the condition met, does not move the stack pointer. -/
def EntersLevel (reg : Registry) (env : VmEnv) (f : Frame) (rest : List Frame) (top m : ℕ) : Prop :=
  ∀ s t, AtPc f rest top s → CodeRun reg env f rest top m s t → AtPc f rest m t → t.sp = s.sp

/-- A loop whose rounds leave one operand each. -/
theorem laps_grow (henter : EntersLevel reg env f rest top m) (hbody : Leaves reg env f rest 0 1 m j)
    (hjmp : InstrAt f.code j (.jmp top) e) (n : ℕ) (hs : AtPc f rest top s)
    (hlaps : Laps reg env f rest top m j n s t) : AtPc f rest top t ∧ t.sp = s.sp + n := by
  induction n generalizing s with
  | zero =>
    obtain rfl := hlaps
    exact ⟨hs, rfl⟩
  | succ n ih =>
    obtain ⟨u, ⟨v, w, hin, hv, hround, hback⟩, hrest⟩ := hlaps
    have hvsp := henter s v hs hin hv
    obtain ⟨hw, hwsp, -⟩ := hbody v w hv hround
    obtain rfl := Except.ok.inj (hw.vmExec_of_step hjmp hback)
    obtain ⟨ht, hsp⟩ := ih (by rfl) hrest
    refine ⟨ht, ?_⟩
    change t.sp = w.sp + n at hsp
    omega

/-! ### Main result -/

/-- The code of `++x` and `--x` never leaves one operand: the new value of `x`, which is stored as
it should be, lies over the old one. A `for` loop with such a last clause, and a `while` loop over
such a statement, leave one more operand each time around. -/
theorem preinc_unbalanced (hcode : f.code = τ.code) :
    (∀ c c' x plus, compileExpr os reg₀ c (.preinc x plus) = .ok c' → Placed τ c c' →
      ∃ k, resolveVar τ.syms x = some k ∧ ∀ s, AtPc f rest (codePc c) s →
        f.vbase + f.nlocals ≤ s.sp →
        (¬ ∃ t, CodeRun reg env f rest (codePc c) (codePc c') s t ∧ t.sp = s.sp + 1) ∧
        ∀ t, CodeRun reg env f rest (codePc c) (codePc c') s t →
          AtPc f rest (codePc c') t ∧ PreincDone f plus k s t) ∧
    (∀ c c' last init cond x plus body,
      compileStmt os reg₀ c last (.for init cond (some (.preinc x plus)) body) = .ok c' →
      Placed τ c c' → ∃ top m i j,
        InitAt reg₀ τ init (codePc c) top ∧ CondAt reg₀ τ cond top (codePc c') m ∧
        StmtAt reg₀ τ (c.syms ++ init.decls) body m i ∧ InstrAt τ.code j (.jmp top) (codePc c') ∧
        (EntersLevel reg env f rest top m → Leaves reg env f rest 0 0 m i → ∀ n s t,
          AtPc f rest top s → Laps reg env f rest top m j n s t → t.sp = s.sp + n)) ∧
    ∀ c c' last cond x plus,
      compileStmt os reg₀ c last (.while cond (.expr (.preinc x plus))) = .ok c' →
      Placed τ c c' → ∃ m j, CondAt reg₀ τ (some cond) (codePc c) (codePc c') m ∧
        InstrAt τ.code j (.jmp (codePc c)) (codePc c') ∧
        (EntersLevel reg env f rest (codePc c) m → ∀ n s t,
          AtPc f rest (codePc c) s → Laps reg env f rest (codePc c) m j n s t → t.sp = s.sp + n) := by
  refine ⟨fun c c' x plus h hplaced ↦ ?_, fun c c' last init cond x plus body h hplaced ↦ ?_,
    fun c c' last cond x plus h hplaced ↦ ?_⟩
  · obtain ⟨k, hk, hseq⟩ := (compileExpr_lays _ h).2 τ hplaced
    rw [← hcode] at hseq
    refine ⟨k, hk, fun s hs hroom ↦ ⟨?_, fun t hrun ↦ hrun.preinc hs hroom hseq⟩⟩
    rintro ⟨t, hrun, hone⟩
    obtain ⟨-, hdone⟩ := hrun.preinc hs hroom hseq
    have htwo := hdone.sp
    omega
  · have h' : compileStmt os reg₀ c false (.for init cond (some (.preinc x plus)) body) = .ok c' := by
      rw [compileStmt] at h ⊢
      exact h
    obtain ⟨top, m, i, j, hinit, hcond, hbody, hpost, hjmp⟩ := (compileStmt_lays _ h').2 τ hplaced
    refine ⟨top, m, i, j, hinit, hcond, hbody, hjmp, fun henter hkeep n s t hs hlaps ↦ ?_⟩
    rw [← hcode] at hjmp
    have hround := hkeep.andThen (DropAt.leaves_preinc hcode hpost) hbody.le
      (DropAt.le hpost) (Nat.zero_le 0)
    exact (laps_grow henter hround hjmp n hs hlaps).2
  · have h' : compileStmt os reg₀ c false (.while cond (.expr (.preinc x plus))) = .ok c' := by
      rw [compileStmt] at h ⊢
      exact h
    obtain ⟨m, j, hcond, hbody, hjmp⟩ := (compileStmt_lays _ h').2 τ hplaced
    refine ⟨m, j, hcond, hjmp, fun henter n s t hs hlaps ↦ ?_⟩
    rw [← hcode] at hjmp
    exact (laps_grow henter (DropAt.leaves_preinc hcode hbody) hjmp n hs hlaps).2

/-- The compiler with one variable `x`. -/
def oneVar : CComp := .start [(cstr "x", .i64)] false 0

theorem exists_preinc_x :
    ∃ c', compileExpr ampleOs [] oneVar (.preinc (cstr "x") true) = .ok c' := ⟨_, rfl⟩

/-- The frame of a finished piece of code over one variable, and the machine at its start. -/
def oneVarFrame (c : CComp) : Frame := ⟨chunkFn c, c.code, 0, 0, 1⟩

def oneVarStart (c : CComp) : VmState := ⟨fun _ ↦ 0, 1, [oneVarFrame c], 0⟩

theorem placed_preinc_x {c' : CComp}
    (h : compileExpr ampleOs [] oneVar (.preinc (cstr "x") true) = .ok c') :
    Placed c'.image oneVar c' := by
  have hbounded : Bounded oneVar := bounded_start (by decide)
  exact (compileExpr_lays _ h).1.placed hbounded

theorem preinc_unbalanced_x : ∃ c', compileExpr ampleOs [] oneVar (.preinc (cstr "x") true) = .ok c' ∧
    ¬ ∃ t, CodeRun [] quietEnv (oneVarFrame c') [] 0 (codePc c') (oneVarStart c') t ∧
      t.sp = 1 + 1 := by
  obtain ⟨c', hc'⟩ := exists_preinc_x
  obtain ⟨k, -, hall⟩ := (@preinc_unbalanced ampleOs [] [] quietEnv (oneVarFrame c') [] c'.image
    rfl).1 oneVar c' (cstr "x") true hc' (placed_preinc_x hc')
  exact ⟨c', hc', (hall (oneVarStart c') rfl le_rfl).1⟩

/-- How many operands a line leaves above its variables when it halts. -/
def operandsLeft (stmts : List Stmt) : Option ℕ :=
  match (nocCompile ampleOs [] stmts).2 with
  | .error _ => none
  | .ok chunk =>
    match nocVmRun [] quietEnv 64 chunk fun _ ↦ 0 with
    | some ⟨.halt t, _⟩ => some (t.sp - chunk.nlocals)
    | _ => none

/-- `for (I64 i = 0; i < 3; <post>) {}` -/
def countTo3 (post : Expr) : Stmt :=
  .for (.decl (cstr "i") .i64 (some (.lit 0))) (some (.bin .lt (.var (cstr "i")) (.lit 3)))
    (some post) (.block [])

/-- `++x` does not leave one operand; a loop of three rounds with `++i` leaves three behind, and with
`i++` none. -/
theorem preinc_leaves_old_value :
    (∃ c', compileExpr ampleOs [] oneVar (.preinc (cstr "x") true) = .ok c' ∧
      ¬ ∃ t, CodeRun [] quietEnv (oneVarFrame c') [] 0 (codePc c') (oneVarStart c') t ∧
        t.sp = (oneVarStart c').sp + 1) ∧
    operandsLeft [countTo3 (.preinc (cstr "i") true)] = some 3 ∧
    operandsLeft [countTo3 (.postinc (cstr "i") true)] = some 0 := by
  refine ⟨?_, by decide +kernel, by decide +kernel⟩
  obtain ⟨c', hc'⟩ := exists_preinc_x
  obtain ⟨k, -, hseq⟩ := (compileExpr_lays _ hc').2 _ (placed_preinc_x hc')
  refine ⟨c', hc', ?_⟩
  rintro ⟨t, hrun, hone⟩
  obtain ⟨-, hdone⟩ := CodeRun.preinc (f := oneVarFrame c') hrun rfl le_rfl hseq
  have htwo := hdone.sp
  omega

end NoOsKernel.Noc
