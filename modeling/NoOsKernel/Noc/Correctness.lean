import NoOsKernel.Noc.Safety
import NoOsKernel.Noc.Semantics

/-!
# The machine computes what a line means

The code of a line of integers, run by the machine, follows the semantics: an expression leaves its
value on the stack and the variables in their slots, a statement leaves the stack as it was. The
machine may give up on the way because its stack is full or a key was pressed.
-/

set_option autoImplicit false
set_option relaxedAutoImplicit false

namespace NoOsKernel.Noc

open Lib

/-! ### Simulation -/

/-- How the machine ends a line that is aborted. -/
def Abort.stop : Abort → Stop
  | .divisionByZero => .error .divisionByZero
  | .quotientOverflow => .trap

/-- The machine gives up in the next round. -/
def GivesUp (reg : Registry) (env : VmEnv) (s : VmState) : Prop :=
  vmStep reg env s = .error (.error .stackOverflow) ∨
    vmStep reg env s = .error (.error .interrupted)

/-- From `s` the machine gets to where the result `r` is due, unless it gives up. -/
def Sim {α : Type} (reg : Registry) (env : VmEnv) (s : VmState) (r : Except Abort α)
    (P : α → VmState → Prop) : Prop :=
  ∃ s', VmReach reg env s s' ∧ (GivesUp reg env s' ∨
    match r with
    | .ok a => P a s'
    | .error a => vmStep reg env s' = .error a.stop)

variable {reg : Registry} {env : VmEnv} {s s' : VmState} {α β : Type}

theorem Sim.done {a : α} {P : α → VmState → Prop} (h : P a s) : Sim reg env s (.ok a) P :=
  ⟨s, .refl, Or.inr h⟩

theorem Sim.bind {r : Except Abort α} {k : α → Except Abort β} {P : α → VmState → Prop}
    {Q : β → VmState → Prop} (h : Sim reg env s r P)
    (hk : ∀ a t, P a t → Sim reg env t (k a) Q) : Sim reg env s (r >>= k) Q := by
  obtain ⟨t, hreach, hup | hr⟩ := h
  · exact ⟨t, hreach, Or.inl hup⟩
  · cases r with
    | error a => exact ⟨t, hreach, Or.inr hr⟩
    | ok a =>
      obtain ⟨u, hreach', hu⟩ := hk a t hr
      exact ⟨u, hreach.trans hreach', hu⟩

/-- A round of the machine that leads on, gives up or aborts as it should. -/
theorem Sim.round {r : Except Abort α} {P : α → VmState → Prop}
    (hok : ∀ t, vmStep reg env s = .ok t → Sim reg env t r P)
    (herror : ∀ stop, vmStep reg env s = .error stop → GivesUp reg env s ∨
      ∃ a, r = .error a ∧ stop = a.stop) : Sim reg env s r P := by
  cases hstep : vmStep reg env s with
  | ok t =>
    obtain ⟨u, hreach, hu⟩ := hok t hstep
    exact ⟨u, .head hstep hreach, hu⟩
  | error stop =>
    rcases herror stop hstep with hup | ⟨a, rfl, rfl⟩
    · exact ⟨s, .refl, Or.inl hup⟩
    · exact ⟨s, .refl, Or.inr hstep⟩

/-! ### The machine in a line -/

variable {chunk : NocFn} {τ : Image} {p q d : ℕ} {i : Instr} {E : Vars}

/-- The machine is in the chunk at position `p` with `d` operands. -/
structure InChunk (chunk : NocFn) (τ : Image) (s : VmState) (p d : ℕ) : Prop where
  frames : s.frames = [⟨chunk, τ.code, p, 0, τ.syms.length⟩]
  sp : s.sp = τ.syms.length + d

/-- The slots hold the values of the variables. -/
def Holds (τ : Image) (E : Vars) (stack : ℕ → U64) : Prop :=
  ∀ x k, resolveVar τ.syms x = some k → stack k = E x

/-- The operands of two stacks are the same up to depth `d`. -/
def SameBelow (τ : Image) (d : ℕ) (stack stack' : ℕ → U64) : Prop :=
  ∀ k, τ.syms.length ≤ k → k < τ.syms.length + d → stack' k = stack k

theorem Holds.update_above {stack : ℕ → U64} (h : Holds τ E stack) (v : U64) :
    Holds τ E (Function.update stack (τ.syms.length + d) v) := by
  intro x k hk
  have hlt := resolveVar_lt hk
  rw [Function.update_of_ne (by omega), h x k hk]

theorem Holds.update_slot {stack : ℕ → U64} {x : Name} {k : ℕ} (h : Holds τ E stack)
    (hk : resolveVar τ.syms x = some k) (v : U64) :
    Holds τ (Function.update E x v) (Function.update stack k v) := by
  intro y j hj
  by_cases hxy : y = x
  · subst hxy
    obtain rfl := Option.some.inj (hj.symm.trans hk)
    rw [Function.update_self, Function.update_self]
  · have hne : j ≠ k := by
      -- a slot belongs to one name
      rintro rfl
      obtain ⟨_, hx⟩ := resolveVar_getElem? hk
      obtain ⟨_, hy⟩ := resolveVar_getElem? hj
      exact hxy (Prod.mk.inj (Option.some.inj (hy.symm.trans hx))).1
    rw [Function.update_of_ne hne, Function.update_of_ne hxy, h y j hj]

/-- The state in which an instruction of the chunk is executed. -/
def InChunk.advance (chunk : NocFn) (τ : Image) (s : VmState) (q : ℕ) : VmState :=
  { s with frames := [⟨chunk, τ.code, q, 0, τ.syms.length⟩], iters := s.iters + 1 }

/-- A round in the chunk: the keyboard or the instruction. -/
theorem InChunk.vmStep (reg : Registry) (env : VmEnv) (h : InChunk chunk τ s p d)
    (hi : InstrAt τ.code p i q) :
    vmStep reg env s = .error (.error .interrupted) ∨
      vmStep reg env s = vmExec reg env (InChunk.advance chunk τ s q)
        ⟨chunk, τ.code, p, 0, τ.syms.length⟩ i := by
  unfold Noc.vmStep
  rw [h.frames]
  simp only
  split_ifs with hkbd hpc
  · exact Or.inl rfl
  · exact absurd hpc (Nat.not_le_of_lt hi.lt_length)
  · right
    rw [hi.decode]
    rfl

/-- A round in the chunk, by what its instruction does. -/
theorem InChunk.sim {r : Except Abort α} {P : α → VmState → Prop} (h : InChunk chunk τ s p d)
    (hi : InstrAt τ.code p i q)
    (hok : ∀ t, vmExec reg env (InChunk.advance chunk τ s q)
      ⟨chunk, τ.code, p, 0, τ.syms.length⟩ i = .ok t → Sim reg env t r P)
    (herror : ∀ stop, vmExec reg env (InChunk.advance chunk τ s q)
      ⟨chunk, τ.code, p, 0, τ.syms.length⟩ i = .error stop →
        stop = .error .stackOverflow ∨ ∃ a, r = .error a ∧ stop = a.stop) :
    Sim reg env s r P := by
  rcases h.vmStep reg env hi with hkbd | hexec
  · exact ⟨s, .refl, Or.inl (Or.inr hkbd)⟩
  · refine Sim.round (fun t ht ↦ hok t (hexec ▸ ht)) fun stop hstop ↦ ?_
    rcases herror stop (hexec ▸ hstop) with rfl | ha
    · exact Or.inl (Or.inl hstop)
    · exact Or.inr ha

theorem vmPush_eq_error {v : U64} {stop : Stop} (h : vmPush s v = .error stop) :
    stop = .error .stackOverflow := by
  unfold vmPush at h
  split_ifs at h
  exact (Except.error.inj h).symm

/-! ### Arithmetic -/

theorem boolWord_decide (b : Bool) (P : Prop) [Decidable P] (h : b = true ↔ P) :
    boolWord b = wordOf P := by
  unfold boolWord wordOf
  by_cases hP : P
  · rw [if_pos hP, if_pos (h.mpr hP)]
  · rw [if_neg hP, if_neg fun hb ↦ hP (h.mp hb)]

theorem toInt_eq_zero_iff (b : U64) : b.toInt = 0 ↔ b = 0 := by
  rw [← BitVec.toInt_inj]
  rfl

theorem divOverflows_iff (a b : U64) :
    divOverflows a b = true ↔ a.toInt = -2 ^ 63 ∧ b.toInt = -1 := by
  rw [divOverflows, decide_eq_true_iff, ← BitVec.toInt_inj, ← BitVec.toInt_inj]
  rfl

theorem toNat_and_sixtyThree (b : U64) : (b &&& 63).toNat = b.toNat % 64 := by
  rw [BitVec.toNat_and]
  exact Nat.and_two_pow_sub_one_eq_mod b.toNat 6

/-- The processor divides as the semantics that aborts on overflow does. -/
theorem cpuDivide_eq {op : BinOp} (hop : op.divides = true) {a b r : U64}
    (hr : r = op.value a b) :
    cpuDivide a b r = (evalBin true op a b).mapError Abort.stop := by
  simp only [cpuDivide, evalBin, hop, true_and, toInt_eq_zero_iff, ← divOverflows_iff, hr]
  split_ifs
  · rfl
  · rfl
  · rfl

/-- The machine computes the operators as the semantics that aborts on overflow does. -/
theorem vmBin_eq (op : BinOp) (a b : U64) :
    vmBin op a b = (evalBin true op a b).mapError Abort.stop := by
  have hplain : op.divides = false → evalBin true op a b = .ok (op.value a b) := by
    intro hop
    rw [evalBin, if_neg (by simp [hop]), if_neg (by simp [hop])]
  cases op with
  | div =>
    refine cpuDivide_eq rfl (BitVec.eq_of_toInt_eq ?_)
    rw [BitVec.toInt_sdiv, BinOp.value, BitVec.toInt_ofInt]
  | mod =>
    refine cpuDivide_eq rfl ?_
    rw [BinOp.value, ← BitVec.toInt_srem, BitVec.ofInt_toInt]
  | eq =>
    rw [hplain rfl]
    exact congrArg _ (boolWord_decide _ _ beq_iff_eq)
  | ne =>
    rw [hplain rfl]
    exact congrArg _ (boolWord_decide _ _ bne_iff_ne)
  | lt =>
    rw [hplain rfl]
    exact congrArg _ (boolWord_decide _ _ BitVec.slt_iff_toInt_lt)
  | le =>
    rw [hplain rfl]
    exact congrArg _ (boolWord_decide _ _ BitVec.sle_iff_toInt_le)
  | gt =>
    rw [hplain rfl]
    exact congrArg _ (boolWord_decide _ _ BitVec.slt_iff_toInt_lt)
  | ge =>
    rw [hplain rfl]
    exact congrArg _ (boolWord_decide _ _ BitVec.sle_iff_toInt_le)
  | shl =>
    rw [hplain rfl, vmBin, toNat_and_sixtyThree]
    rfl
  | shr =>
    rw [hplain rfl, vmBin, toNat_and_sixtyThree]
    rfl
  | add => rw [hplain rfl]; rfl
  | sub => rw [hplain rfl]; rfl
  | mul => rw [hplain rfl]; rfl
  | band => rw [hplain rfl]; rfl
  | bor => rw [hplain rfl]; rfl
  | bxor => rw [hplain rfl]; rfl

/-! ### Instructions of the chunk -/

section Instructions

variable {r : Except Abort α} {P : α → VmState → Prop} {k : ℕ} {v : U64}

/-- An instruction that pushes a value. -/
theorem InChunk.sim_vmPush (h : InChunk chunk τ s p d) (hi : InstrAt τ.code p i q)
    (hexec : vmExec reg env (InChunk.advance chunk τ s q) ⟨chunk, τ.code, p, 0, τ.syms.length⟩ i =
      vmPush (InChunk.advance chunk τ s q) v)
    (hk : ∀ t, InChunk chunk τ t q (d + 1) →
      t.stack = Function.update s.stack (τ.syms.length + d) v → Sim reg env t r P) :
    Sim reg env s r P := by
  refine h.sim hi (fun t ht ↦ ?_) fun stop hstop ↦ Or.inl (vmPush_eq_error (hexec ▸ hstop))
  obtain rfl := vmPush_eq_ok (hexec ▸ ht)
  have hsp := h.sp
  refine hk _ ⟨rfl, ?_⟩ ?_
  · change s.sp + 1 = τ.syms.length + (d + 1)
    omega
  · change Function.update s.stack s.sp v = _
    rw [hsp]

theorem InChunk.sim_push (h : InChunk chunk τ s p d) (hi : InstrAt τ.code p (.push v) q)
    (hk : ∀ t, InChunk chunk τ t q (d + 1) →
      t.stack = Function.update s.stack (τ.syms.length + d) v → Sim reg env t r P) :
    Sim reg env s r P :=
  h.sim_vmPush hi rfl hk

theorem InChunk.sim_load (h : InChunk chunk τ s p d) (hi : InstrAt τ.code p (.load k) q)
    (hslot : k < τ.syms.length)
    (hk : ∀ t, InChunk chunk τ t q (d + 1) →
      t.stack = Function.update s.stack (τ.syms.length + d) (s.stack k) → Sim reg env t r P) :
    Sim reg env s r P := by
  refine h.sim_vmPush hi ?_ hk
  rw [vmExec, if_neg (Nat.not_le_of_lt hslot), Nat.zero_add]
  rfl

theorem InChunk.sim_dup (h : InChunk chunk τ s p (d + 1)) (hi : InstrAt τ.code p .dup q)
    (hk : ∀ t, InChunk chunk τ t q (d + 2) →
      t.stack = Function.update s.stack (τ.syms.length + (d + 1)) (s.stack (τ.syms.length + d)) →
      Sim reg env t r P) : Sim reg env s r P := by
  have hsp := h.sp
  have hpos : (InChunk.advance chunk τ s q).sp ≠ 0 := by
    change s.sp ≠ 0
    omega
  refine h.sim_vmPush hi ?_ hk
  rw [vmExec, if_neg hpos]
  change vmPush _ (s.stack (s.sp - 1)) = _
  rw [show s.sp - 1 = τ.syms.length + d by omega]

theorem InChunk.vmPop_advance (h : InChunk chunk τ s p (d + 1)) :
    vmPop (InChunk.advance chunk τ s q) = .ok (s.stack (τ.syms.length + d),
      { InChunk.advance chunk τ s q with sp := τ.syms.length + d }) := by
  have hsp : (InChunk.advance chunk τ s q).sp = τ.syms.length + d + 1 := h.sp
  rw [vmPop, hsp, if_neg (Nat.succ_ne_zero _), Nat.add_sub_cancel]
  rfl

theorem InChunk.sim_pop (h : InChunk chunk τ s p (d + 1)) (hi : InstrAt τ.code p .pop q)
    (hk : ∀ t, InChunk chunk τ t q d → t.stack = s.stack → Sim reg env t r P) :
    Sim reg env s r P := by
  have hsp := h.sp
  have hpos : (InChunk.advance chunk τ s q).sp ≠ 0 := by
    change s.sp ≠ 0
    omega
  refine h.sim hi (fun t ht ↦ ?_) fun stop hstop ↦ ?_
  · rw [vmExec, if_neg hpos] at ht
    obtain rfl := Except.ok.inj ht
    refine hk _ ⟨rfl, ?_⟩ rfl
    change s.sp - 1 = _
    omega
  · rw [vmExec, if_neg hpos] at hstop
    exact absurd hstop (by rintro ⟨⟩)

theorem InChunk.sim_store (h : InChunk chunk τ s p (d + 1)) (hi : InstrAt τ.code p (.store k) q)
    (hslot : k < τ.syms.length)
    (hk : ∀ t, InChunk chunk τ t q d →
      t.stack = Function.update s.stack k (s.stack (τ.syms.length + d)) → Sim reg env t r P) :
    Sim reg env s r P := by
  have hexec : vmExec reg env (InChunk.advance chunk τ s q) ⟨chunk, τ.code, p, 0, τ.syms.length⟩
      (.store k) = .ok { InChunk.advance chunk τ s q with
        sp := τ.syms.length + d
        stack := Function.update s.stack k (s.stack (τ.syms.length + d)) } := by
    rw [vmExec, h.vmPop_advance]
    simp only [bind, Except.bind]
    rw [if_neg (Nat.not_le_of_lt hslot), Nat.zero_add]
    rfl
  refine h.sim hi (fun t ht ↦ ?_) fun stop hstop ↦ ?_
  · obtain rfl := Except.ok.inj (hexec.symm.trans ht)
    exact hk _ ⟨rfl, rfl⟩ rfl
  · exact absurd (hexec.symm.trans hstop) (by rintro ⟨⟩)

theorem InChunk.sim_un {op : UnOp} (h : InChunk chunk τ s p (d + 1))
    (hi : InstrAt τ.code p op.instr q)
    (hk : ∀ t, InChunk chunk τ t q (d + 1) →
      t.stack = Function.update s.stack (τ.syms.length + d)
        (op.value (s.stack (τ.syms.length + d))) → Sim reg env t r P) :
    Sim reg env s r P := by
  have hexec : vmExec reg env (InChunk.advance chunk τ s q) ⟨chunk, τ.code, p, 0, τ.syms.length⟩
      op.instr = vmPush { InChunk.advance chunk τ s q with sp := τ.syms.length + d }
        (op.value (s.stack (τ.syms.length + d))) := by
    cases op with
    | neg =>
      rw [UnOp.instr, vmExec, h.vmPop_advance]
      rfl
    | not =>
      have hword : boolWord (s.stack (τ.syms.length + d) == 0) =
          UnOp.not.value (s.stack (τ.syms.length + d)) := boolWord_decide _ _ beq_iff_eq
      rw [UnOp.instr, vmExec, h.vmPop_advance, ← hword]
      rfl
    | bnot =>
      rw [UnOp.instr, vmExec, h.vmPop_advance]
      rfl
  refine h.sim hi (fun t ht ↦ ?_) fun stop hstop ↦ Or.inl (vmPush_eq_error (hexec ▸ hstop))
  obtain rfl := vmPush_eq_ok (hexec ▸ ht)
  exact hk _ ⟨rfl, rfl⟩ rfl

theorem InChunk.sim_bin {op : BinOp} (h : InChunk chunk τ s p (d + 2))
    (hi : InstrAt τ.code p (.bin op) q)
    (hk : ∀ w t, evalBin true op (s.stack (τ.syms.length + d)) (s.stack (τ.syms.length + (d + 1))) =
        .ok w → InChunk chunk τ t q (d + 1) →
      t.stack = Function.update s.stack (τ.syms.length + d) w → Sim reg env t r P)
    (herror : ∀ a, evalBin true op (s.stack (τ.syms.length + d))
      (s.stack (τ.syms.length + (d + 1))) = .error a → r = .error a) :
    Sim reg env s r P := by
  have hpop : vmPop { InChunk.advance chunk τ s q with sp := τ.syms.length + (d + 1) } =
      .ok (s.stack (τ.syms.length + d),
        { InChunk.advance chunk τ s q with sp := τ.syms.length + d }) := rfl
  have hexec : vmExec reg env (InChunk.advance chunk τ s q) ⟨chunk, τ.code, p, 0, τ.syms.length⟩
      (.bin op) = (vmBin op (s.stack (τ.syms.length + d)) (s.stack (τ.syms.length + (d + 1))) >>=
        vmPush { InChunk.advance chunk τ s q with sp := τ.syms.length + d }) := by
    rw [vmExec, h.vmPop_advance]
    simp only [bind, Except.bind, hpop]
  rw [vmBin_eq] at hexec
  cases heval : evalBin true op (s.stack (τ.syms.length + d))
      (s.stack (τ.syms.length + (d + 1))) with
  | error a =>
    rw [heval] at hexec
    refine h.sim hi (fun t ht ↦ ?_) fun stop hstop ↦ ?_
    · exact absurd (hexec.symm.trans ht) (by rintro ⟨⟩)
    · exact Or.inr ⟨a, herror a heval, (Except.error.inj (hexec.symm.trans hstop)).symm⟩
  | ok w =>
    rw [heval] at hexec
    refine h.sim hi (fun t ht ↦ ?_) fun stop hstop ↦ Or.inl (vmPush_eq_error (hexec ▸ hstop))
    obtain rfl := vmPush_eq_ok (hexec ▸ ht)
    exact hk w _ heval ⟨rfl, rfl⟩ rfl

theorem InChunk.sim_jmp {t : ℕ} (h : InChunk chunk τ s p d) (hi : InstrAt τ.code p (.jmp t) q)
    (hk : ∀ u, InChunk chunk τ u t d → u.stack = s.stack → Sim reg env u r P) :
    Sim reg env s r P := by
  refine h.sim hi (fun u hu ↦ ?_) fun stop hstop ↦ absurd hstop (by rintro ⟨⟩)
  obtain rfl := Except.ok.inj hu
  exact hk _ ⟨rfl, h.sp⟩ rfl

theorem InChunk.sim_jmpf {t : ℕ} (h : InChunk chunk τ s p (d + 1))
    (hi : InstrAt τ.code p (.jmpf t) q)
    (hk : ∀ u, InChunk chunk τ u (if s.stack (τ.syms.length + d) = 0 then t else q) d →
      u.stack = s.stack → Sim reg env u r P) : Sim reg env s r P := by
  have hexec : vmExec reg env (InChunk.advance chunk τ s q) ⟨chunk, τ.code, p, 0, τ.syms.length⟩
      (.jmpf t) = .ok { InChunk.advance chunk τ s
        (if s.stack (τ.syms.length + d) = 0 then t else q) with sp := τ.syms.length + d } := by
    rw [vmExec, h.vmPop_advance]
    simp only [bind, Except.bind]
    split_ifs
    · rfl
    · rfl
  refine h.sim hi (fun u hu ↦ ?_) fun stop hstop ↦ absurd (hexec.symm.trans hstop) (by rintro ⟨⟩)
  obtain rfl := Except.ok.inj (hexec.symm.trans hu)
  exact hk _ ⟨rfl, rfl⟩ rfl

end Instructions

/-! ### Expressions -/

/-- An expression that started in `s` with `d` operands has left its value. -/
structure ExprDone (chunk : NocFn) (τ : Image) (q d : ℕ) (s : VmState) (r : U64 × Vars)
    (t : VmState) : Prop where
  inChunk : InChunk chunk τ t q (d + 1)
  holds : Holds τ r.2 t.stack
  value : t.stack (τ.syms.length + d) = r.1
  below : SameBelow τ d s.stack t.stack

variable {reg₀ : Registry}

/-- A value that was just pushed. -/
theorem exprDone_of_push {v : U64} (h : InChunk chunk τ s' q (d + 1)) (hholds : Holds τ E s.stack)
    (hstack : s'.stack = Function.update s.stack (τ.syms.length + d) v) :
    ExprDone chunk τ q d s (v, E) s' := by
  refine ⟨h, ?_, ?_, fun k _ hk ↦ ?_⟩
  · rw [hstack]
    exact hholds.update_above v
  · rw [hstack, Function.update_self]
  · rw [hstack, Function.update_of_ne (by omega)]

/-- The end of an assignment: the value on top goes to its slot and stays. -/
theorem sim_dup_store {x : Name} {k : ℕ} {v : U64} {t : VmState}
    (hslot : resolveVar τ.syms x = some k) (hcode : SeqAt τ.code p [.dup, .store k] q)
    (hdone : ExprDone chunk τ p d s (v, E) t) :
    Sim reg env t (.ok (v, Function.update E x v)) (ExprDone chunk τ q d s) := by
  obtain ⟨m, hdup, _, hstore, rfl⟩ := hcode
  have hlt := resolveVar_lt hslot
  refine hdone.inChunk.sim_dup hdup fun t₁ h₁ hstack₁ ↦ ?_
  refine h₁.sim_store hstore hlt fun t₂ h₂ hstack₂ ↦ Sim.done ?_
  rw [hstack₁, Function.update_self, hdone.value] at hstack₂
  refine ⟨h₂, ?_, ?_, fun j hlo hhi ↦ ?_⟩
  · rw [hstack₂]
    exact (hdone.holds.update_above _).update_slot hslot v
  · rw [hstack₂, Function.update_of_ne (by omega), Function.update_of_ne (by omega), hdone.value]
  · rw [hstack₂, Function.update_of_ne (by omega), Function.update_of_ne (by omega),
      hdone.below j hlo hhi]

/-- An operator over the two topmost operands. -/
theorem sim_binary {op : BinOp} {v w : U64} {t : VmState} (hi : InstrAt τ.code p (.bin op) q)
    (hchunk : InChunk chunk τ t p (d + 2)) (hholds : Holds τ E t.stack)
    (hv : t.stack (τ.syms.length + d) = v) (hw : t.stack (τ.syms.length + (d + 1)) = w)
    (hbelow : SameBelow τ d s.stack t.stack) :
    Sim reg env t (evalBin true op v w) fun r u ↦ ExprDone chunk τ q d s (r, E) u := by
  subst hv hw
  refine hchunk.sim_bin hi (fun r u heval hu hstack ↦ ?_) fun a ha ↦ ha
  rw [heval]
  have hdone := exprDone_of_push hu hholds hstack
  exact Sim.done ⟨hdone.inChunk, hdone.holds, hdone.value,
    fun k hlo hhi ↦ (hdone.below k hlo hhi).trans (hbelow k hlo hhi)⟩

theorem add_incStep (plus : Bool) (v : U64) : v + incStep plus = postStep plus v := by
  cases plus
  · exact (BitVec.sub_eq_add_neg v 1).symm
  · rfl

/-- The code of an expression leaves the value and the variables of the semantics. -/
theorem IntExpr.sim : ∀ (e : IntExpr) {s : VmState} {p q d : ℕ} {E : Vars},
    ExprAt reg₀ τ e.toExpr p q → InChunk chunk τ s p d → Holds τ E s.stack →
    Sim reg env s (e.eval true E) (ExprDone chunk τ q d s)
  | .lit v, s, p, q, d, E, hcode, hchunk, hholds =>
    hchunk.sim_push hcode fun _ ht hstack ↦ Sim.done (exprDone_of_push ht hholds hstack)
  | .var x, s, p, q, d, E, ⟨k, hk, hi⟩, hchunk, hholds => by
    refine hchunk.sim_load hi (resolveVar_lt hk) fun t ht hstack ↦ Sim.done ?_
    rw [hholds x k hk] at hstack
    exact exprDone_of_push ht hholds hstack
  | .bin op a b, s, p, q, d, E, ⟨m, m', ha, hb, hi⟩, hchunk, hholds => by
    refine Sim.bind (a.sim ha hchunk hholds) ?_
    rintro ⟨v, E₁⟩ t₁ h₁
    refine Sim.bind (b.sim hb h₁.inChunk h₁.holds) ?_
    rintro ⟨w, E₂⟩ t₂ h₂
    have hv : t₂.stack (τ.syms.length + d) = v := by
      rw [h₂.below _ (by omega) (by omega), h₁.value]
    have hbelow : SameBelow τ d s.stack t₂.stack := by
      intro k hlo hhi
      rw [h₂.below k hlo (by omega), h₁.below k hlo hhi]
    exact (sim_binary hi h₂.inChunk h₂.holds hv h₂.value hbelow).bind fun r t₃ h₃ ↦ Sim.done h₃
  | .un op a, s, p, q, d, E, ⟨m, ha, hi⟩, hchunk, hholds => by
    refine Sim.bind (a.sim ha hchunk hholds) ?_
    rintro ⟨v, E₁⟩ t₁ h₁
    refine h₁.inChunk.sim_un hi fun t₂ h₂ hstack ↦ Sim.done ?_
    rw [h₁.value] at hstack
    have hdone := exprDone_of_push h₂ h₁.holds hstack
    exact ⟨hdone.inChunk, hdone.holds, hdone.value,
      fun k hlo hhi ↦ (hdone.below k hlo hhi).trans (h₁.below k hlo hhi)⟩
  | .postinc x plus, s, p, q, d, E, ⟨k, hk, m₁, h₁, m₂, h₂, m₃, h₃, m₄, h₄, _, h₅, rfl⟩, hchunk,
      hholds => by
    have hlt := resolveVar_lt hk
    refine hchunk.sim_load h₁ hlt fun t₁ hin₁ hst₁ ↦ ?_
    refine hin₁.sim_dup h₂ fun t₂ hin₂ hst₂ ↦ ?_
    refine hin₂.sim_push h₃ fun t₃ hin₃ hst₃ ↦ ?_
    rw [hholds x k hk] at hst₁
    rw [hst₁, Function.update_self] at hst₂
    refine hin₃.sim_bin h₄ (fun w t₄ hw hin₄ hst₄ ↦ ?_) fun a ha ↦ absurd ha (by rintro ⟨⟩)
    refine hin₄.sim_store h₅ hlt fun t₅ hin₅ hst₅ ↦ Sim.done ?_
    have hvalue : w = postStep plus (E x) := by
      rw [hst₃, Function.update_self, Function.update_of_ne (by omega), hst₂,
        Function.update_self] at hw
      obtain rfl := Except.ok.inj hw
      exact add_incStep plus (E x)
    rw [hst₄, Function.update_self, hst₃, hst₂, hvalue] at hst₅
    refine ⟨hin₅, ?_, ?_, fun j hlo hhi ↦ ?_⟩
    · rw [hst₅]
      exact ((((hholds.update_above _).update_above _).update_above _).update_above _).update_slot
        hk _
    · rw [hst₅, Function.update_of_ne (by omega), Function.update_of_ne (by omega),
        Function.update_of_ne (by omega), Function.update_of_ne (by omega), Function.update_self]
    · rw [hst₅, Function.update_of_ne (by omega), Function.update_of_ne (by omega),
        Function.update_of_ne (by omega), Function.update_of_ne (by omega),
        Function.update_of_ne (by omega)]
  | .assign op x a, s, p, q, d, E, ⟨k, hk, hcode⟩, hchunk, hholds => by
    rw [IntExpr.eval]
    cases hop : op.binOp with
    | none =>
      simp only [hop] at hcode ⊢
      obtain ⟨m, ha, hseq⟩ := hcode
      refine Sim.bind (a.sim ha hchunk hholds) ?_
      rintro ⟨v, E₁⟩ t₁ h₁
      exact sim_dup_store hk hseq h₁
    | some compound =>
      simp only [hop] at hcode ⊢
      obtain ⟨m, m', hload, ha, n, hbin, hseq⟩ := hcode
      refine hchunk.sim_load hload (resolveVar_lt hk) fun t₁ hin₁ hst₁ ↦ ?_
      rw [hholds x k hk] at hst₁
      have h₁ := exprDone_of_push hin₁ hholds hst₁
      refine Sim.bind (a.sim ha hin₁ h₁.holds) ?_
      rintro ⟨v, E₁⟩ t₂ h₂
      have hold : t₂.stack (τ.syms.length + d) = E x := by
        rw [h₂.below _ (by omega) (by omega), h₁.value]
      have hbelow : SameBelow τ d s.stack t₂.stack := by
        intro j hlo hhi
        rw [h₂.below j hlo (by omega), h₁.below j hlo hhi]
      refine (sim_binary hbin h₂.inChunk h₂.holds hold h₂.value hbelow).bind fun r t₃ h₃ ↦ ?_
      exact sim_dup_store hk hseq h₃

/-! ### Statements -/

/-- A statement has left the variables of the semantics and no operands. -/
structure StmtDone (chunk : NocFn) (τ : Image) (q : ℕ) (E : Vars) (t : VmState) : Prop where
  inChunk : InChunk chunk τ t q 0
  holds : Holds τ E t.stack

theorem execExpr_sim {e : IntExpr} (hcode : DropAt reg₀ τ e.toExpr p q)
    (h : StmtDone chunk τ p E s) :
    Sim reg env s (execExpr true e E) (StmtDone chunk τ q) := by
  obtain ⟨m, he, hi⟩ := hcode
  refine Sim.bind (e.sim he h.inChunk h.holds) ?_
  rintro ⟨v, E₁⟩ t₁ h₁
  refine h₁.inChunk.sim_pop hi fun t₂ hin₂ hst₂ ↦ Sim.done ⟨hin₂, ?_⟩
  rw [hst₂]
  exact h₁.holds

theorem execDecl_sim {x : Name} {init : Option IntExpr}
    (hcode : DeclAt reg₀ τ x (init.map IntExpr.toExpr) p q) (h : StmtDone chunk τ p E s) :
    Sim reg env s (execDecl true x init E) (StmtDone chunk τ q) := by
  obtain ⟨k, hk, hcode⟩ := hcode
  cases init with
  | none =>
    obtain rfl : p = q := hcode
    exact Sim.done h
  | some e =>
    obtain ⟨m, he, hi⟩ := hcode
    refine Sim.bind (e.sim he h.inChunk h.holds) ?_
    rintro ⟨v, E₁⟩ t₁ h₁
    refine h₁.inChunk.sim_store hi (resolveVar_lt hk) fun t₂ hin₂ hst₂ ↦ Sim.done ⟨hin₂, ?_⟩
    rw [hst₂, h₁.value]
    exact h₁.holds.update_slot hk v

theorem execInit_sim {init : IntInit} (hcode : InitAt reg₀ τ init.toInit p q)
    (h : StmtDone chunk τ p E s) :
    Sim reg env s (execInit true init E) (StmtDone chunk τ q) := by
  cases init with
  | none =>
    obtain rfl : p = q := hcode
    exact Sim.done h
  | decl x type e => exact execDecl_sim hcode h
  | expr e => exact execExpr_sim hcode h

theorem execPost_sim {post : Option IntExpr} (hcode : PostAt reg₀ τ (post.map IntExpr.toExpr) p q)
    (h : StmtDone chunk τ p E s) :
    Sim reg env s (execPost true post E) (StmtDone chunk τ q) := by
  cases post with
  | none =>
    obtain rfl : p = q := hcode
    exact Sim.done h
  | some e => exact execExpr_sim hcode h

/-- A condition goes on to the body or leaves for `stop`. -/
theorem evalCond_sim {c : Option IntExpr} {stop : ℕ}
    (hcode : CondAt reg₀ τ (c.map IntExpr.toExpr) p stop q) (h : StmtDone chunk τ p E s) :
    Sim reg env s (evalCond true c E) fun r t ↦
      StmtDone chunk τ (if r.1 then q else stop) r.2 t := by
  cases c with
  | none =>
    obtain rfl : p = q := hcode
    exact Sim.done h
  | some e =>
    obtain ⟨j, he, hi⟩ := hcode
    refine Sim.bind (e.sim he h.inChunk h.holds) ?_
    rintro ⟨v, E₁⟩ t₁ h₁
    refine h₁.inChunk.sim_jmpf hi fun t₂ hin₂ hst₂ ↦ Sim.done ⟨?_, ?_⟩
    · rw [h₁.value] at hin₂
      simp only [decide_not, Bool.not_eq_true', decide_eq_false_iff_not, ite_not]
      exact hin₂
    · rw [hst₂]
      exact h₁.holds

/-- A result of a statement and the machine that gets to where it is due. -/
def RanSim {α : Type} (reg : Registry) (env : VmEnv) (s : VmState) (r : Ran α)
    (P : α → VmState → Prop) : Prop :=
  ∀ x, r = some x → Sim reg env s x P

theorem RanSim.andThen {r : Ran α} {k : α → Ran β} {P : α → VmState → Prop}
    {Q : β → VmState → Prop} (h : RanSim reg env s r P)
    (hk : ∀ a t, P a t → RanSim reg env t (k a) Q) : RanSim reg env s (ranThen r k) Q := by
  intro y hy
  match r, h, hy with
  | some (.error a), h, hy =>
    obtain rfl := Option.some.inj hy
    obtain ⟨t, hreach, ht⟩ := h (.error a) rfl
    exact ⟨t, hreach, ht⟩
  | some (.ok v), h, hy =>
    obtain ⟨t, hreach, hup | hv⟩ := h (.ok v) rfl
    · exact ⟨t, hreach, Or.inl hup⟩
    · obtain ⟨u, hreach', hu⟩ := hk v t hv y hy
      exact ⟨u, hreach.trans hreach', hu⟩

theorem ranSim_of_sim {r : Except Abort α} {P : α → VmState → Prop} (h : Sim reg env s r P) :
    RanSim reg env s (some r) P := by
  intro x hx
  obtain rfl := Option.some.inj hx
  exact h

theorem map_fst_decls (init : IntInit) : init.toInit.decls.map Prod.fst = init.names := by
  cases init <;> rfl

mutual

theorem map_fst_declsOf : ∀ s : IntStmt, (declsOf s.toStmt).map Prod.fst = s.names
  | .expr _ => rfl
  | .decl _ _ _ => rfl
  | .block body => map_fst_declsOfBlock body
  | .ifThen _ t => map_fst_declsOf t
  | .ifElse _ t e => by
    rw [IntStmt.toStmt, declsOf, List.map_append, map_fst_declsOf t, map_fst_declsOf e]
    rfl
  | .while _ body => map_fst_declsOf body
  | .for init _ _ body => by
    rw [IntStmt.toStmt, declsOf, List.map_append, map_fst_decls, map_fst_declsOf body]
    rfl

theorem map_fst_declsOfBlock : ∀ ss : List IntStmt,
    (declsOfBlock (toStmts ss)).map Prod.fst = namesOf ss
  | [] => rfl
  | s :: ss => by
    rw [toStmts, declsOfBlock, List.map_append, map_fst_declsOf s, map_fst_declsOfBlock ss]
    rfl

end

/-- A declared variable is no call. -/
theorem stmtExpr_of_scoped {syms : List (Name × NType)} {e : IntExpr}
    (h : e.Scoped (syms.map Prod.fst)) : stmtExpr reg₀ syms e.toExpr = e.toExpr := by
  cases e with
  | var x =>
    have hsome := isSome_resolveVar h
    rw [IntExpr.toExpr, stmtExpr, if_pos hsome]
  | _ => rfl

/-- The code of a statement leaves the variables of the semantics. -/
theorem execStmt_sim {n : ℕ} : ∀ (st : IntStmt) {syms : List (Name × NType)} {p q : ℕ} {E : Vars}
    {s : VmState}, StmtAt reg₀ τ syms st.toStmt p q → st.Scoped (syms.map Prod.fst) →
    StmtDone chunk τ p E s → RanSim reg env s (execStmt true n st E) (StmtDone chunk τ q) := by
  induction n with
  | zero => exact fun _ _ _ _ _ _ _ _ _ x hx ↦ absurd hx (by rintro ⟨⟩)
  | succ n ih =>
    intro st syms p q E s hcode hscope h
    cases st with
    | expr e =>
      rw [IntStmt.toStmt, StmtAt, stmtExpr_of_scoped hscope] at hcode
      exact ranSim_of_sim (execExpr_sim hcode h)
    | decl x type init => exact ranSim_of_sim (execDecl_sim hcode h)
    | block body =>
      rw [IntStmt.toStmt, StmtAt] at hcode
      rw [IntStmt.Scoped] at hscope
      rw [execStmt]
      induction body generalizing syms p E s with
      | nil =>
        obtain rfl : p = q := hcode
        exact ranSim_of_sim (Sim.done h)
      | cons st ss ihss =>
        obtain ⟨m, hst, hss⟩ := hcode
        refine (ih st hst hscope.1 h).andThen fun E₁ t₁ h₁ ↦ ihss h₁ hss ?_
        rw [List.map_append, map_fst_declsOf]
        exact hscope.2
    | ifThen c t =>
      obtain ⟨m, hcond, ht⟩ := hcode
      refine (ranSim_of_sim (evalCond_sim (c := some c) hcond h)).andThen ?_
      rintro ⟨go, E₁⟩ t₁ h₁
      cases go
      · exact ranSim_of_sim (Sim.done h₁)
      · exact ih t ht hscope.2 h₁
    | ifElse c t e =>
      obtain ⟨m, j, l, hcond, ht, hj, he⟩ := hcode
      refine (ranSim_of_sim (evalCond_sim (c := some c) hcond h)).andThen ?_
      rintro ⟨go, E₁⟩ t₁ h₁
      cases go
      · refine ih e he ?_ h₁
        rw [List.map_append, map_fst_declsOf]
        exact hscope.2.2
      · intro x hx
        -- the first branch ends with a jump over the second
        have hthen := ih t ht hscope.2.1 h₁ x hx
        cases x with
        | error a => exact hthen
        | ok E₂ =>
          obtain ⟨t₂, hreach, hup | h₂⟩ := hthen
          · exact ⟨t₂, hreach, Or.inl hup⟩
          · have hjmp : Sim reg env t₂ (.ok E₂) (StmtDone chunk τ q) :=
              h₂.inChunk.sim_jmp hj fun u hu hst ↦ Sim.done ⟨hu, hst ▸ h₂.holds⟩
            obtain ⟨t₃, hreach', h₃⟩ := hjmp
            exact ⟨t₃, hreach.trans hreach', h₃⟩
    | «while» c body =>
      have hwhole := hcode
      obtain ⟨m, j, hcond, hbody, hj⟩ := hcode
      refine (ranSim_of_sim (evalCond_sim (c := some c) hcond h)).andThen ?_
      rintro ⟨go, E₁⟩ t₁ h₁
      cases go
      · exact ranSim_of_sim (Sim.done h₁)
      · refine (ih body hbody hscope.2 h₁).andThen fun E₂ t₂ h₂ x hx ↦ ?_
        refine h₂.inChunk.sim_jmp hj fun u hu hst ↦ ?_
        exact ih (.while c body) hwhole hscope ⟨hu, hst ▸ h₂.holds⟩ x hx
    | «for» init c post body =>
      obtain ⟨top, m, j, k, hinit, hcond, hbody, hpost, hj⟩ := hcode
      obtain ⟨-, hcscope, hbscope, hpscope⟩ := hscope
      have hnames : (syms ++ init.toInit.decls).map Prod.fst = syms.map Prod.fst ++ init.names := by
        rw [List.map_append, map_fst_decls]
      -- later rounds are those of the loop without its first clause
      have hloop : StmtAt reg₀ τ (syms ++ init.toInit.decls) (IntStmt.for .none c post body).toStmt
          top q := by
        refine ⟨top, m, j, k, rfl, hcond, ?_, hpost, hj⟩
        rw [show ((IntInit.none).toInit).decls = [] from rfl, List.append_nil]
        exact hbody
      have hlscope : (IntStmt.for .none c post body).Scoped
          ((syms ++ init.toInit.decls).map Prod.fst) := by
        rw [hnames]
        refine ⟨trivial, ?_, ?_, ?_⟩
        · rwa [show IntInit.none.names = [] from rfl, List.append_nil]
        · rwa [show IntInit.none.names = [] from rfl, List.append_nil]
        · rwa [show IntInit.none.names = [] from rfl, List.append_nil]
      refine (ranSim_of_sim (execInit_sim hinit h)).andThen fun E₁ t₁ h₁ ↦ ?_
      refine (ranSim_of_sim (evalCond_sim hcond h₁)).andThen ?_
      rintro ⟨go, E₂⟩ t₂ h₂
      cases go
      · exact ranSim_of_sim (Sim.done h₂)
      · refine (ih body hbody (hnames ▸ hbscope) h₂).andThen fun E₃ t₃ h₃ ↦ ?_
        refine (ranSim_of_sim (execPost_sim hpost h₃)).andThen fun E₄ t₄ h₄ x hx ↦ ?_
        refine h₄.inChunk.sim_jmp hj fun u hu hst ↦ ?_
        exact ih (.for .none c post body) hloop hlscope ⟨hu, hst ▸ h₄.holds⟩ x hx

end NoOsKernel.Noc
