import NoOsKernel.Lib.Region
import NoOsKernel.Noc.Semantics
import NoOsKernel.Noc.Step

/-!
# Running a piece of code

The code of an expression is a piece of the code of some function. `CodeRun` runs the machine from
the start of such a piece until it leaves it; calls made on the way belong to the run. `Leaves`
counts what a piece takes from the stack and leaves there, and `Leaves.andThen` adds up the counts
of two pieces. The code of an expression over integers leaves one operand (`IntExpr.leaves`).
-/

set_option autoImplicit false
set_option relaxedAutoImplicit false

namespace NoOsKernel.Noc

open Lib

/-- The frame `f` is at position `p`, above the frames `rest`. -/
def AtPc (f : Frame) (rest : List Frame) (p : ℕ) (s : VmState) : Prop :=
  s.frames = { f with pc := p } :: rest

/-- The frame is in its code from `p` to `q`, or waits for a call. -/
def InCode (f : Frame) (rest : List Frame) (p q : ℕ) (s : VmState) : Prop :=
  (∃ x, p ≤ x ∧ x < q ∧ AtPc f rest x s) ∨ rest.length + 1 < s.frames.length

/-- The machine runs the code from `p` to `q` and leaves it in `t`. -/
def CodeRun (reg : Registry) (env : VmEnv) (f : Frame) (rest : List Frame) (p q : ℕ)
    (s t : VmState) : Prop :=
  Through (vmStep reg env) (InCode f rest p q) s t

/-- The code from `p` to `q` takes `k` operands, leaves `n` in their place and falls through to its
end. Of what lies below only the locals of the frame may change. -/
def Leaves (reg : Registry) (env : VmEnv) (f : Frame) (rest : List Frame) (k n p q : ℕ) : Prop :=
  ∀ s t, AtPc f rest p s → CodeRun reg env f rest p q s t →
    AtPc f rest q t ∧ t.sp + k = s.sp + n ∧
      ∀ j, j + k < s.sp → j < f.vbase ∨ f.vbase + f.nlocals ≤ j → t.stack j = s.stack j

variable {reg reg₀ : Registry} {env : VmEnv} {f : Frame} {rest : List Frame} {i : Instr} {τ : Image}
  {p p' q q' m k k' n n' : ℕ} {s t u : VmState}

/-! ### Parts of a run -/

theorem AtPc.not_inCode (h : AtPc f rest p' s) (hout : p' < p ∨ q ≤ p') :
    ¬ InCode f rest p q s := by
  rintro (⟨x, hpx, hxq, hx⟩ | hdeep)
  · have hpc : p' = x := congrArg Frame.pc (List.cons.inj (h.symm.trans hx)).1
    omega
  · rw [h, List.length_cons] at hdeep
    exact lt_irrefl _ hdeep

/-- The instruction a round of the machine executes. -/
theorem AtPc.vmExec_of_step {s' : VmState} (h : AtPc f rest p s) (hi : InstrAt f.code p i q)
    (hstep : vmStep reg env s = .ok s') :
    vmExec reg env { s with frames := { f with pc := q } :: rest, iters := s.iters + 1 }
      { f with pc := p } i = .ok s' := by
  unfold vmStep at hstep
  rw [h] at hstep
  simp only at hstep
  split_ifs at hstep
  rwa [hi.decode] at hstep

theorem InCode.mono (h : InCode f rest p q s) (hp : p' ≤ p) (hq : q ≤ q') :
    InCode f rest p' q' s :=
  h.imp (fun ⟨x, hpx, hxq, hx⟩ ↦ ⟨x, hp.trans hpx, hxq.trans_le hq, hx⟩) id

namespace CodeRun

/-- A run leaves every part of its code. -/
theorem split (h : CodeRun reg env f rest p q s t) (p' q' : ℕ) (hp : p ≤ p') (hq : q' ≤ q) :
    ∃ u, CodeRun reg env f rest p' q' s u ∧ CodeRun reg env f rest p q u t :=
  Through.split h fun _ hu ↦ hu.mono hp hq

/-- A run ends where the frame comes to the end of the code. -/
theorem eq_of_end (h : CodeRun reg env f rest p q s t) (hs : AtPc f rest q s) : s = t :=
  Through.eq_of_outside h (hs.not_inCode (Or.inr le_rfl))

/-- The next instruction of a run. -/
theorem next (h : CodeRun reg env f rest p' q' s t) (hs : AtPc f rest p s) (hp : p' ≤ p)
    (hq : p < q') (hi : InstrAt f.code p i q) :
    ∃ s', vmExec reg env { s with frames := { f with pc := q } :: rest, iters := s.iters + 1 }
        { f with pc := p } i = .ok s' ∧ CodeRun reg env f rest p' q' s' t := by
  obtain ⟨s', hstep, hrest⟩ := Through.first h (Or.inl ⟨p, hp, hq, hs⟩)
  exact ⟨s', hs.vmExec_of_step hi hstep, hrest⟩

/-- An instruction that neither calls nor returns moves on in the frame. -/
theorem move (h : CodeRun reg env f rest p' q' s t) (hs : AtPc f rest p s) (hp : p' ≤ p)
    (hq : p < q') (hi : InstrAt f.code p i q) (hcall : ∀ si count, i ≠ .call si count)
    (hret : i ≠ .ret) :
    ∃ s' x, x ∈ i.targets q ∧ AtPc f rest x s' ∧ s'.sp + i.operands = s.sp + i.results ∧
      (∀ k, k + i.operands < s.sp → k < f.vbase ∨ f.vbase + f.nlocals ≤ k →
        s'.stack k = s.stack k) ∧ CodeRun reg env f rest p' q' s' t := by
  obtain ⟨s', hexec, hrest⟩ := h.next hs hp hq hi
  have heffect := vmExec_effect (f := { f with pc := p }) rfl hexec
  cases heffect with
  | move x hx hframes hsp hstack => exact ⟨s', x, hx, hframes, hsp, hstack, hrest⟩
  | enter si count _ _ hcalls => exact absurd hcalls (hcall si count)
  | leave hrets => exact absurd hrets hret

/-- An instruction that pushes a value. -/
theorem next_push {v : U64} (h : CodeRun reg env f rest p' q' s t) (hs : AtPc f rest p s)
    (hp : p' ≤ p) (hq : p < q') (hi : InstrAt f.code p i q)
    (hexec : ∀ s₁ s₂, s₁.stack = s.stack → s₁.sp = s.sp →
      vmExec reg env s₁ { f with pc := p } i = .ok s₂ → vmPush s₁ v = .ok s₂) :
    ∃ s', AtPc f rest q s' ∧ s'.sp = s.sp + 1 ∧ s'.stack = Function.update s.stack s.sp v ∧
      CodeRun reg env f rest p' q' s' t := by
  obtain ⟨s', hok, hrest⟩ := h.next hs hp hq hi
  obtain rfl := vmPush_eq_ok (hexec _ s' (by rfl) (by rfl) hok)
  refine ⟨_, ?_, ?_, ?_, hrest⟩
  · rfl
  · rfl
  · rfl

theorem push {v : U64} (h : CodeRun reg env f rest p' q' s t) (hs : AtPc f rest p s) (hp : p' ≤ p)
    (hq : p < q') (hi : InstrAt f.code p (.push v) q) :
    ∃ s', AtPc f rest q s' ∧ s'.sp = s.sp + 1 ∧ s'.stack = Function.update s.stack s.sp v ∧
      CodeRun reg env f rest p' q' s' t :=
  h.next_push hs hp hq hi fun _ _ _ _ hok ↦ hok

theorem load {slot : ℕ} (h : CodeRun reg env f rest p' q' s t) (hs : AtPc f rest p s)
    (hp : p' ≤ p) (hq : p < q') (hi : InstrAt f.code p (.load slot) q) :
    ∃ s', AtPc f rest q s' ∧ s'.sp = s.sp + 1 ∧
      s'.stack = Function.update s.stack s.sp (s.stack (f.vbase + slot)) ∧
      CodeRun reg env f rest p' q' s' t := by
  refine h.next_push hs hp hq hi fun s₁ s₂ hstack _ hok ↦ ?_
  simp only [vmExec] at hok
  split_ifs at hok
  rwa [hstack] at hok

theorem dup (h : CodeRun reg env f rest p' q' s t) (hs : AtPc f rest p s) (hp : p' ≤ p)
    (hq : p < q') (hi : InstrAt f.code p .dup q) :
    ∃ s', AtPc f rest q s' ∧ s'.sp = s.sp + 1 ∧
      s'.stack = Function.update s.stack s.sp (s.stack (s.sp - 1)) ∧
      CodeRun reg env f rest p' q' s' t := by
  refine h.next_push hs hp hq hi fun s₁ s₂ hstack hsp hok ↦ ?_
  simp only [vmExec] at hok
  split_ifs at hok
  rwa [hstack, hsp] at hok

/-- `OP_ADD`, with its operands on top. -/
theorem add (h : CodeRun reg env f rest p' q' s t) (hs : AtPc f rest p s) (hp : p' ≤ p)
    (hq : p < q') (hi : InstrAt f.code p (.bin .add) q) :
    ∃ s', AtPc f rest q s' ∧ s'.sp + 1 = s.sp ∧
      s'.stack = Function.update s.stack (s.sp - 2) (s.stack (s.sp - 2) + s.stack (s.sp - 1)) ∧
      CodeRun reg env f rest p' q' s' t := by
  obtain ⟨s', hok, hrest⟩ := h.next hs hp hq hi
  obtain ⟨b, hpop, hok⟩ := exists_of_bind_eq_ok hok
  obtain ⟨hpos, rfl⟩ := vmPop_eq_ok hpop
  obtain ⟨a, hpop', hok⟩ := exists_of_bind_eq_ok hok
  obtain ⟨hpos', rfl⟩ := vmPop_eq_ok hpop'
  obtain ⟨r, hadd, hok⟩ := exists_of_bind_eq_ok hok
  obtain rfl := Except.ok.inj hadd
  obtain rfl := vmPush_eq_ok hok
  simp only at hpos'
  refine ⟨_, ?_, ?_, ?_, hrest⟩
  · rfl
  · show s.sp - 1 - 1 + 1 + 1 = s.sp
    omega
  · show Function.update s.stack (s.sp - 1 - 1) (s.stack (s.sp - 1 - 1) + s.stack (s.sp - 1)) = _
    rw [Nat.sub_sub]

theorem store {slot : ℕ} (h : CodeRun reg env f rest p' q' s t) (hs : AtPc f rest p s)
    (hp : p' ≤ p) (hq : p < q') (hi : InstrAt f.code p (.store slot) q) :
    ∃ s', AtPc f rest q s' ∧ s'.sp + 1 = s.sp ∧
      s'.stack = Function.update s.stack (f.vbase + slot) (s.stack (s.sp - 1)) ∧
      slot < f.nlocals ∧ CodeRun reg env f rest p' q' s' t := by
  obtain ⟨s', hok, hrest⟩ := h.next hs hp hq hi
  obtain ⟨v, hpop, hok⟩ := exists_of_bind_eq_ok hok
  obtain ⟨hpos, rfl⟩ := vmPop_eq_ok hpop
  simp only at hok hpos
  split_ifs at hok with hslot
  · exact absurd hok (by rintro ⟨⟩)
  · obtain rfl := Except.ok.inj hok
    refine ⟨_, ?_, ?_, ?_, Nat.lt_of_not_le hslot, hrest⟩
    · rfl
    · exact Nat.sub_add_cancel hpos
    · rfl

theorem jmp {x : ℕ} (h : CodeRun reg env f rest p' q' s t) (hs : AtPc f rest p s) (hp : p' ≤ p)
    (hq : p < q') (hi : InstrAt f.code p (.jmp x) q) :
    ∃ s', AtPc f rest x s' ∧ s'.sp = s.sp ∧ s'.stack = s.stack ∧
      CodeRun reg env f rest p' q' s' t := by
  obtain ⟨s', hok, hrest⟩ := h.next hs hp hq hi
  obtain rfl := Except.ok.inj hok
  refine ⟨_, ?_, ?_, ?_, hrest⟩
  · rfl
  · rfl
  · rfl

/-- The jump of a short-circuit operator takes its operand; `&&` leaves at zero, `||` at anything
else. -/
theorem branch {isAnd : Bool} {x : ℕ} (h : CodeRun reg env f rest p' q' s t)
    (hs : AtPc f rest p s) (hp : p' ≤ p) (hq : p < q')
    (hi : InstrAt f.code p (logicJump isAnd x) q) :
    ∃ s', AtPc f rest (if (s.stack (s.sp - 1) = 0 ↔ isAnd = true) then x else q) s' ∧
      s'.sp + 1 = s.sp ∧ s'.stack = s.stack ∧ CodeRun reg env f rest p' q' s' t := by
  obtain ⟨s', hok, hrest⟩ := h.next hs hp hq hi
  have hjump : 0 < s.sp ∧ s' = if (s.stack (s.sp - 1) = 0 ↔ isAnd = true)
      then VmState.setPc ⟨s.stack, s.sp - 1, { f with pc := q } :: rest, s.iters + 1⟩ x
      else ⟨s.stack, s.sp - 1, { f with pc := q } :: rest, s.iters + 1⟩ := by
    cases isAnd
    · obtain ⟨v, hpop, hok⟩ := exists_of_bind_eq_ok hok
      obtain ⟨hpos, rfl⟩ := vmPop_eq_ok hpop
      refine ⟨hpos, (Except.ok.inj hok).symm.trans ?_⟩
      simp
    · obtain ⟨v, hpop, hok⟩ := exists_of_bind_eq_ok hok
      obtain ⟨hpos, rfl⟩ := vmPop_eq_ok hpop
      refine ⟨hpos, (Except.ok.inj hok).symm.trans ?_⟩
      simp
  obtain ⟨hpos, rfl⟩ := hjump
  refine ⟨_, ?_, ?_, ?_, hrest⟩
  · split_ifs
    · rfl
    · rfl
  · split_ifs
    · exact Nat.sub_add_cancel hpos
    · exact Nat.sub_add_cancel hpos
  · split_ifs
    · rfl
    · rfl

end CodeRun

/-! ### Operands -/

namespace Leaves

/-- Two pieces, one after the other. -/
theorem andThen (h : Leaves reg env f rest k n p m) (h' : Leaves reg env f rest k' n' m q)
    (hpm : p ≤ m) (hmq : m ≤ q) (hk : k' ≤ n) : Leaves reg env f rest k (n - k' + n') p q := by
  intro s t hs hrun
  obtain ⟨u, hfirst, hrest⟩ := hrun.split p m le_rfl hmq
  obtain ⟨hu, hsp, hkept⟩ := h s u hs hfirst
  obtain ⟨v, hsecond, hend⟩ := hrest.split m q hpm le_rfl
  obtain ⟨hv, hsp', hkept'⟩ := h' u v hu hsecond
  obtain rfl := hend.eq_of_end hv
  refine ⟨hv, by omega, fun j hj hout ↦ ?_⟩
  rw [hkept' j (by omega) hout, hkept j hj hout]

end Leaves

/-- Instructions that neither jump, call, return nor stop. -/
def Instr.straight : Instr → Bool
  | .call _ _ => false
  | .ret => false
  | .jmp _ => false
  | .jmpf _ => false
  | .jmpt _ => false
  | .halt => false
  | .unknown _ => false
  | _ => true

theorem InstrAt.leaves (hi : InstrAt f.code p i q) (hstraight : i.straight = true) :
    Leaves reg env f rest i.operands i.results p q := by
  intro s t hs hrun
  have hkind : i.targets q = [q] ∧ (∀ si count, i ≠ .call si count) ∧ i ≠ .ret := by
    cases i with
    | call | ret | jmp | jmpf | jmpt | halt | unknown => exact absurd hstraight Bool.false_ne_true
    | _ => exact ⟨rfl, by rintro _ _ ⟨⟩, by rintro ⟨⟩⟩
  obtain ⟨htargets, hcall, hret⟩ := hkind
  obtain ⟨s', x, hx, hs', hsp, hkept, hrest⟩ := hrun.move hs le_rfl hi.lt hi hcall hret
  rw [htargets, List.mem_singleton] at hx
  subst hx
  obtain rfl := hrest.eq_of_end hs'
  exact ⟨hs', hsp, hkept⟩

/-- The operands after some straight instructions that find `n`. -/
def operandsAfter : ℕ → List Instr → Option ℕ
  | n, [] => some n
  | n, i :: is =>
    if i.straight = true ∧ i.operands ≤ n then operandsAfter (n - i.operands + i.results) is
    else none

/-- A piece and straight instructions behind it. -/
theorem Leaves.seq {is : List Instr} (h : Leaves reg env f rest k n p m)
    (hseq : SeqAt f.code m is q) (hpm : p ≤ m) (hcount : operandsAfter n is = some n') :
    Leaves reg env f rest k n' p q := by
  induction is generalizing n m with
  | nil =>
    obtain rfl := Option.some.inj hcount
    obtain rfl : m = q := hseq
    exact h
  | cons i is ih =>
    obtain ⟨m', hi, hrest⟩ := hseq
    rw [operandsAfter] at hcount
    split_ifs at hcount with hok
    exact ih (h.andThen (hi.leaves hok.1) hpm hi.lt.le hok.2) hrest (hpm.trans hi.lt.le) hcount

/-- A piece without code. -/
theorem Leaves.nil : Leaves reg env f rest 0 0 p p := by
  intro s t hs hrun
  obtain rfl := hrun.eq_of_end hs
  exact ⟨hs, rfl, fun _ _ _ ↦ rfl⟩

/-- The code of an expression over integers leaves one operand. -/
theorem IntExpr.leaves (hcode : f.code = τ.code) : ∀ (e : IntExpr) {p q : ℕ},
    ExprAt reg₀ τ e.toExpr p q → Leaves reg env f rest 0 1 p q
  | .lit v, p, q, hi => by
    have hi' : InstrAt f.code p (.push v) q := hcode ▸ hi
    exact hi'.leaves rfl
  | .var x, p, q, ⟨slot, _, hi⟩ => by
    have hi' : InstrAt f.code p (.load slot) q := hcode ▸ hi
    exact hi'.leaves rfl
  | .bin op a b, p, q, ⟨m, m', ha, hb, hi⟩ => by
    rw [← hcode] at hi
    have hboth := (a.leaves hcode ha).andThen (b.leaves hcode hb) ha.lt.le hb.lt.le (Nat.zero_le 1)
    exact hboth.andThen (hi.leaves rfl) (ha.lt.trans hb.lt).le hi.lt.le le_rfl
  | .un op a, p, q, ⟨m, ha, hi⟩ => by
    rw [← hcode] at hi
    have hop : op.instr.straight = true ∧ op.instr.operands = 1 ∧ op.instr.results = 1 := by
      cases op with
      | _ => exact ⟨rfl, rfl, rfl⟩
    have hun : Leaves reg env f rest op.instr.operands op.instr.results m q := hi.leaves hop.1
    rw [hop.2.1, hop.2.2] at hun
    exact (a.leaves hcode ha).andThen hun ha.lt.le hi.lt.le le_rfl
  | .postinc x plus, p, q, ⟨slot, _, hseq⟩ => by
    rw [← hcode] at hseq
    exact Leaves.nil.seq hseq le_rfl rfl
  | .assign op x a, p, q, ⟨slot, _, h⟩ => by
    cases hop : op.binOp with
    | none =>
      simp only [hop] at h
      obtain ⟨m, ha, hseq⟩ := h
      rw [← hcode] at hseq
      exact (a.leaves hcode ha).seq hseq ha.lt.le rfl
    | some bin =>
      simp only [hop] at h
      obtain ⟨m, m', hload, ha, hseq⟩ := h
      rw [← hcode] at hseq hload
      have hfirst : Leaves reg env f rest 0 1 p m := hload.leaves rfl
      have hboth := hfirst.andThen (a.leaves hcode ha) hload.lt.le ha.lt.le (Nat.zero_le 1)
      exact hboth.seq hseq (hload.lt.trans ha.lt).le rfl

end NoOsKernel.Noc
