import NoOsKernel.Noc.Fragment
import NoOsKernel.Noc.Safety

/-!
# Short-circuit operators

The code of `a && b` and `a || b` evaluates `a`, and `b` only if it has to. Its end is two `OP_PUSH`
with a jump between them, and the jump is patched to the second one instead of the position behind
it. So every run executes both and leaves two operands, the same two whatever the values are.
-/

set_option autoImplicit false
set_option relaxedAutoImplicit false

namespace NoOsKernel.Noc

open Lib

variable {os : NocOs} {reg reg₀ : Registry} {env : VmEnv} {f : Frame} {rest : List Frame}
  {τ : Image} {c c₁ c₂ c₃ c' : CComp} {a b : Expr} {isAnd : Bool} {p q p' q' j₁ m j₂ l j₃ d : ℕ}
  {s t u : VmState}

/-- The operand that the code of a short-circuit operator leaves first. -/
def logicFirst (isAnd : Bool) : U64 := if isAnd then 0 else 1

/-- The operand that it leaves on top. -/
def logicSecond (isAnd : Bool) : U64 := if isAnd then 1 else 0

/-- The end of the code: both values are pushed. -/
theorem CodeRun.logicTail (hrun : CodeRun reg env f rest p q s t) (hs : AtPc f rest l s)
    (hpl : p ≤ l) (hp₁ : InstrAt f.code l (.push (logicFirst isAnd)) j₃)
    (hj₃ : InstrAt f.code j₃ (.jmp d) d) (hp₂ : InstrAt f.code d (.push (logicSecond isAnd)) q) :
    AtPc f rest q t ∧ t.sp = s.sp + 2 ∧
      t.stack = Function.update (Function.update s.stack s.sp (logicFirst isAnd)) (s.sp + 1)
        (logicSecond isAnd) := by
  have hl := hp₁.lt
  have hj := hj₃.lt
  have hd := hp₂.lt
  obtain ⟨s₁, hs₁, hsp₁, hstack₁, hrun₁⟩ := hrun.push hs hpl (by omega) hp₁
  obtain ⟨s₂, hs₂, hsp₂, hstack₂, hrun₂⟩ := hrun₁.jmp hs₁ (by omega) (by omega) hj₃
  obtain ⟨s₃, hs₃, hsp₃, hstack₃, hrun₃⟩ := hrun₂.push hs₂ (by omega) hd hp₂
  obtain rfl := hrun₃.eq_of_end hs₃
  refine ⟨hs₃, by omega, ?_⟩
  rw [hstack₃, hstack₂, hstack₁, hsp₂, hsp₁]

/-- A run of the code, given what the operands leave. -/
theorem CodeRun.logic (hrun : CodeRun reg env f rest p q s t) (hs : AtPc f rest p s)
    (ha : Leaves reg env f rest 0 1 p j₁) (hj₁ : InstrAt f.code j₁ (logicJump isAnd l) m)
    (hb : Leaves reg env f rest 0 1 m j₂) (hj₂ : InstrAt f.code j₂ (logicJump isAnd l) l)
    (hp₁ : InstrAt f.code l (.push (logicFirst isAnd)) j₃) (hj₃ : InstrAt f.code j₃ (.jmp d) d)
    (hp₂ : InstrAt f.code d (.push (logicSecond isAnd)) q) (hpj : p ≤ j₁) (hmj : m ≤ j₂) :
    (AtPc f rest q t ∧ t.sp = s.sp + 2 ∧ t.stack s.sp = logicFirst isAnd ∧
      t.stack (s.sp + 1) = logicSecond isAnd) ∧
      ∃ u, CodeRun reg env f rest p j₁ s u ∧
        ((∃ v, AtPc f rest m v ∧ CodeRun reg env f rest p m s v) ↔
          ¬ (u.stack s.sp = 0 ↔ isAnd = true)) := by
  have hjm := hj₁.lt
  have hjl := hj₂.lt
  have hl := hp₁.lt
  have hj := hj₃.lt
  have hd := hp₂.lt
  -- both ways to the end come to `l` with the stack pointer of the start
  have hend : ∀ w, AtPc f rest l w → w.sp = s.sp → CodeRun reg env f rest p q w t →
      AtPc f rest q t ∧ t.sp = s.sp + 2 ∧ t.stack s.sp = logicFirst isAnd ∧
        t.stack (s.sp + 1) = logicSecond isAnd := by
    intro w hw hsp hwrun
    obtain ⟨ht, htsp, hstack⟩ := hwrun.logicTail hw (by omega) hp₁ hj₃ hp₂
    rw [hsp] at htsp hstack
    refine ⟨ht, htsp, ?_, ?_⟩
    · rw [hstack, Function.update_of_ne (by omega), Function.update_self]
    · rw [hstack, Function.update_self]
  obtain ⟨v, hentry, hrun₁⟩ := hrun.split p m le_rfl (by omega)
  obtain ⟨u, hleft, hrest⟩ := hentry.split p j₁ le_rfl hjm.le
  obtain ⟨hu, husp, -⟩ := ha s u hs hleft
  obtain ⟨v', hv, hvsp, -, hleave⟩ := hrest.branch hu hpj hjm hj₁
  rw [show u.sp - 1 = s.sp by omega] at hv
  by_cases hjump : u.stack s.sp = 0 ↔ isAnd = true
  · -- the second operand is left out
    rw [if_pos hjump] at hv
    obtain rfl := Through.eq_of_outside hleave (hv.not_inCode (Or.inr (by omega)))
    refine ⟨hend v' hv (by omega) hrun₁, u, hleft, iff_of_false ?_ (not_not.mpr hjump)⟩
    rintro ⟨w, hw, hwrun⟩
    obtain rfl := Through.unique hentry hwrun
    have hpc : l = m := congrArg Frame.pc (List.cons.inj (hv.symm.trans hw)).1
    omega
  · rw [if_neg hjump] at hv
    obtain rfl := hleave.eq_of_end hv
    obtain ⟨w, hright, hrun₂⟩ := hrun₁.split m j₂ (by omega) (by omega)
    obtain ⟨hw, hwsp, -⟩ := hb v' w hv hright
    obtain ⟨x, hx, hxsp, -, hrun₃⟩ := hrun₂.branch hw (by omega) (by omega) hj₂
    rw [ite_self] at hx
    exact ⟨hend x hx (by omega) hrun₃, u, hleft, iff_of_true ⟨v', hv, hentry⟩ hjump⟩

/-- The instructions around the two operands, as `compile_bin` lays them out. -/
theorem logic_code (ha : compileExpr os reg₀ c a = .ok c₁)
    (hjump : emitJump os c₁ (if isAnd then opJmpf else opJmpt) = .ok c₂)
    (hb : compileExpr os reg₀ c₂ b = .ok c₃) (h : compileExpr os reg₀ c (.logic isAnd a b) = .ok c')
    (hplaced : Placed τ c c') :
    ∃ l j₃ d, ExprAt reg₀ τ a (codePc c) (codePc c₁) ∧ ExprAt reg₀ τ b (codePc c₂) (codePc c₃) ∧
      InstrAt τ.code (codePc c₁) (logicJump isAnd l) (codePc c₂) ∧
      InstrAt τ.code (codePc c₃) (logicJump isAnd l) l ∧
      InstrAt τ.code l (.push (logicFirst isAnd)) j₃ ∧ InstrAt τ.code j₃ (.jmp d) d ∧
      InstrAt τ.code d (.push (logicSecond isAnd)) (codePc c') := by
  have hlaysA := compileExpr_lays a ha
  have hlaysB := compileExpr_lays b hb
  rw [compileExpr] at h
  obtain ⟨d₁, h₁, h⟩ := exists_of_bind_eq_ok h
  obtain rfl := Except.ok.inj (ha.symm.trans h₁)
  obtain ⟨d₂, h₂, h⟩ := exists_of_bind_eq_ok h
  obtain rfl := Except.ok.inj (hjump.symm.trans h₂)
  obtain ⟨d₃, h₃, h⟩ := exists_of_bind_eq_ok h
  obtain rfl := Except.ok.inj (hb.symm.trans h₃)
  obtain ⟨c₄, h₄, h⟩ := exists_of_bind_eq_ok h
  obtain ⟨c₅, h₅, h⟩ := exists_of_bind_eq_ok h
  obtain ⟨c₆, h₆, h⟩ := exists_of_bind_eq_ok h
  obtain ⟨c₇, h₇, h⟩ := exists_of_bind_eq_ok h
  have hlays := hlaysA.andThen (logic_lays hjump hlaysB h₄ h₅ h₆ h₇ (Except.ok.inj h))
  obtain ⟨hA, hj₁, hB, hj₂, hp₁, hj₃, hp₂⟩ := hlays.2 τ hplaced
  exact ⟨_, _, _, hA, hB, hj₁, hj₂, hp₁, hj₃, hp₂⟩

/-! ### Main result -/

/-- The code of `a && b` and `a || b` does not fall through with one value, whatever `a` and `b`
are: it leaves two, the upper one `1` for `&&` and `0` for `||`. Only which operands are evaluated
depends on `a` as it should. -/
theorem logic_leaves_two (ha : compileExpr os reg₀ c a = .ok c₁)
    (hjump : emitJump os c₁ (if isAnd then opJmpf else opJmpt) = .ok c₂)
    (hb : compileExpr os reg₀ c₂ b = .ok c₃) (h : compileExpr os reg₀ c (.logic isAnd a b) = .ok c')
    (hplaced : Placed τ c c') (hcode : f.code = τ.code)
    (haOne : Leaves reg env f rest 0 1 (codePc c) (codePc c₁))
    (hbOne : Leaves reg env f rest 0 1 (codePc c₂) (codePc c₃)) (hs : AtPc f rest (codePc c) s) :
    (¬ ∃ t, CodeRun reg env f rest (codePc c) (codePc c') s t ∧ t.sp = s.sp + 1) ∧
      ∀ t, CodeRun reg env f rest (codePc c) (codePc c') s t →
        (AtPc f rest (codePc c') t ∧ t.sp = s.sp + 2 ∧ t.stack s.sp = logicFirst isAnd ∧
          t.stack (s.sp + 1) = logicSecond isAnd) ∧
        ∃ u, CodeRun reg env f rest (codePc c) (codePc c₁) s u ∧
          ((∃ v, AtPc f rest (codePc c₂) v ∧
              CodeRun reg env f rest (codePc c) (codePc c₂) s v) ↔
            ¬ (u.stack s.sp = 0 ↔ isAnd = true)) := by
  obtain ⟨l, j₃, d, hA, hB, hj₁, hj₂, hp₁, hj₃, hp₂⟩ := logic_code ha hjump hb h hplaced
  rw [← hcode] at hj₁ hj₂ hp₁ hj₃ hp₂
  constructor
  · rintro ⟨t, hrun, hone⟩
    obtain ⟨⟨-, htwo, -⟩, -⟩ := hrun.logic hs haOne hj₁ hbOne hj₂ hp₁ hj₃ hp₂ hA.lt.le hB.lt.le
    omega
  · exact fun t hrun ↦ hrun.logic hs haOne hj₁ hbOne hj₂ hp₁ hj₃ hp₂ hA.lt.le hB.lt.le

/-- The parts of an operator that compiles, and the code of its operands over integers. -/
theorem exists_logic_parts (reg : Registry) (env : VmEnv) (f : Frame) (rest : List Frame)
    (x y : IntExpr)
    (h : compileExpr os reg₀ c (.logic isAnd x.toExpr y.toExpr) = .ok c') (hb : Bounded c)
    (hcode : f.code = c'.code) :
    ∃ c₁ c₂ c₃, compileExpr os reg₀ c x.toExpr = .ok c₁ ∧
      emitJump os c₁ (if isAnd then opJmpf else opJmpt) = .ok c₂ ∧
      compileExpr os reg₀ c₂ y.toExpr = .ok c₃ ∧ Placed c'.image c c' ∧
      Leaves reg env f rest 0 1 (codePc c) (codePc c₁) ∧
      Leaves reg env f rest 0 1 (codePc c₂) (codePc c₃) := by
  have hplaced := (compileExpr_lays _ h).1.placed hb
  have hparts := h
  rw [compileExpr] at hparts
  obtain ⟨c₁, h₁, hparts⟩ := exists_of_bind_eq_ok hparts
  obtain ⟨c₂, h₂, hparts⟩ := exists_of_bind_eq_ok hparts
  obtain ⟨c₃, h₃, -⟩ := exists_of_bind_eq_ok hparts
  obtain ⟨-, -, -, hx, hy, -⟩ := logic_code h₁ h₂ h₃ h hplaced
  exact ⟨c₁, c₂, c₃, h₁, h₂, h₃, hplaced, x.leaves hcode hx, y.leaves hcode hy⟩

/-- The machine at the start of a finished piece of code. -/
def atStart (c : CComp) : VmState := ⟨fun _ ↦ 0, 0, [⟨chunkFn c, c.code, 0, 0, 0⟩], 0⟩

theorem logic_leaves_two_ones : ∃ c', compileExpr ampleOs [] (.start [] false 0)
      (.logic true (.lit 1) (.lit 1)) = .ok c' ∧
    ¬ ∃ t, CodeRun [] quietEnv ⟨chunkFn c', c'.code, 0, 0, 0⟩ [] 0 (codePc c') (atStart c') t ∧
      t.sp = 0 + 1 := by
  obtain ⟨c', hc'⟩ : ∃ c', compileExpr ampleOs [] (.start [] false 0)
    (.logic true (.lit 1) (.lit 1)) = .ok c' := ⟨_, rfl⟩
  have hbounded : Bounded (.start [] false 0) := bounded_start (Nat.zero_le _)
  obtain ⟨c₁, c₂, c₃, h₁, h₂, h₃, hplaced, hx, hy⟩ := exists_logic_parts [] quietEnv
    ⟨chunkFn c', c'.code, 0, 0, 0⟩ [] (.lit 1) (.lit 1) hc' hbounded rfl
  exact ⟨c', hc', (logic_leaves_two (s := atStart c') h₁ h₂ h₃ hc' hplaced rfl hx hy rfl).1⟩

/-- How many operands a line leaves when it halts, and the result it shows. -/
def lineShows (stmts : List Stmt) : Option (ℕ × U64) :=
  match (nocCompile ampleOs [] stmts).2 with
  | .error _ => none
  | .ok chunk =>
    match nocVmRun [] quietEnv 9 chunk fun _ ↦ 0 with
    | some ⟨.halt t, some v⟩ => some (t.sp, v)
    | _ => none

/-- The literals push one value each, but `1 && 1` does not; as a line it leaves two and shows the
lower one, which is zero. -/
theorem one_and_one_leaves_two : ∃ c₁ c₂ c₃ c',
    compileExpr ampleOs [] (.start [] false 0) (.lit 1) = .ok c₁ ∧
    emitJump ampleOs c₁ opJmpf = .ok c₂ ∧ compileExpr ampleOs [] c₂ (.lit 1) = .ok c₃ ∧
    compileExpr ampleOs [] (.start [] false 0) (.logic true (.lit 1) (.lit 1)) = .ok c' ∧
    Leaves [] quietEnv ⟨chunkFn c', c'.code, 0, 0, 0⟩ [] 0 1 0 (codePc c₁) ∧
    Leaves [] quietEnv ⟨chunkFn c', c'.code, 0, 0, 0⟩ [] 0 1 (codePc c₂) (codePc c₃) ∧
    (¬ ∃ t, CodeRun [] quietEnv ⟨chunkFn c', c'.code, 0, 0, 0⟩ [] 0 (codePc c') (atStart c') t ∧
      t.sp = (atStart c').sp + 1) ∧
    lineShows [.expr (.logic true (.lit 1) (.lit 1))] = some (2, 0) := by
  obtain ⟨c', hc'⟩ : ∃ c', compileExpr ampleOs [] (.start [] false 0)
    (.logic true (.lit 1) (.lit 1)) = .ok c' := ⟨_, rfl⟩
  have hbounded : Bounded (.start [] false 0) := bounded_start (Nat.zero_le _)
  obtain ⟨c₁, c₂, c₃, h₁, h₂, h₃, hplaced, hx, hy⟩ := exists_logic_parts [] quietEnv
    ⟨chunkFn c', c'.code, 0, 0, 0⟩ [] (.lit 1) (.lit 1) hc' hbounded rfl
  refine ⟨c₁, c₂, c₃, c', h₁, h₂, h₃, hc', hx, hy, ?_, by decide +kernel⟩
  obtain ⟨l, j₃, d, hA, hB, hj₁, hj₂, hp₁, hj₃, hp₂⟩ := logic_code h₁ h₂ h₃ hc' hplaced
  rintro ⟨t, hrun, hone⟩
  obtain ⟨⟨-, htwo, -⟩, -⟩ := hrun.logic rfl hx hj₁ hy hj₂ hp₁ hj₃ hp₂ hA.lt.le hB.lt.le
  omega

end NoOsKernel.Noc
