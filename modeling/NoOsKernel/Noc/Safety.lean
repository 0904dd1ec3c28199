import Mathlib.Logic.Relation
import NoOsKernel.Noc.Session
import NoOsKernel.Noc.Step

/-!
# Compiled code never trips the machine

The invariant of `run_loop`: every frame has its locals below the operands it still needs, from the
innermost frame to the chunk, and the code of each is safe at its program counter with the operands
it will find there. A frame that waits for a call will find one operand above the base of the frame
that was called.
-/

set_option autoImplicit false
set_option relaxedAutoImplicit false

namespace NoOsKernel.Noc

open Lib

/-- One round of the loop leads from a state to another. -/
def VmNext (reg : Registry) (env : VmEnv) (s t : VmState) : Prop := vmStep reg env s = .ok t

/-- Some rounds lead from a state to another. -/
def VmReach (reg : Registry) (env : VmEnv) : VmState → VmState → Prop :=
  Relation.ReflTransGen (VmNext reg env)

/-- Some rounds of the loop. -/
def vmRounds (reg : Registry) (env : VmEnv) : ℕ → VmState → Vm VmState
  | 0, s => .ok s
  | n + 1, s => do
    let s ← vmStep reg env s
    vmRounds reg env n s

theorem VmReach.of_vmRounds {reg : Registry} {env : VmEnv} {n : ℕ} {s t : VmState}
    (h : vmRounds reg env n s = .ok t) : VmReach reg env s t := by
  induction n generalizing s with
  | zero =>
    obtain rfl := Except.ok.inj h
    exact .refl
  | succ n ih =>
    obtain ⟨s₁, hstep, hrest⟩ := exists_of_bind_eq_ok h
    exact (ih hrest).head hstep

/-- An environment in which no key is pressed. -/
def quietEnv : VmEnv where
  builtins := fun _ _ _ ↦ none
  strAddr := fun _ _ ↦ 0
  kbd := fun _ ↦ false

/-! ### The invariant -/

/-- The locals of a frame are below `sp` and its code is safe with the operands between. -/
structure FrameOk (known : Name → Prop) (inFn : Bool) (f : Frame) (sp : ℕ) : Prop where
  base_le : f.vbase + f.nlocals ≤ sp
  safe : Safe (DepthOk known f.nlocals f.fn.strings inFn f.code) (DepthNext f.code)
    (f.pc, sp - (f.vbase + f.nlocals))

/-- All frames are in order when the innermost has `sp`; the outermost is no function. -/
def FramesOk (known : Name → Prop) : List Frame → ℕ → Prop
  | [], _ => True
  | f :: rest, sp => FrameOk known (!rest.isEmpty) f sp ∧ FramesOk known rest (f.vbase + 1)

/-- The machine is in order. -/
def VmOk (known : Name → Prop) (s : VmState) : Prop :=
  s.frames ≠ [] ∧ FramesOk known s.frames s.sp

variable {known : Name → Prop} {reg : Registry} {env : VmEnv} {f : Frame} {rest : List Frame}
  {inFn : Bool} {i : Instr} {q sp sp' t : ℕ} {s s' : VmState}

/-- The instruction at the program counter of a frame in order. -/
theorem FrameOk.now (h : FrameOk known inFn f sp) :
    f.pc < f.code.length ∧ Legal known f.nlocals f.fn.strings inFn (decode f.code f.pc).1 ∧
      f.vbase + f.nlocals + (decode f.code f.pc).1.operands ≤ sp := by
  obtain ⟨hlt, hlegal, hle⟩ := h.safe.now
  have hbase := h.base_le
  exact ⟨hlt, hlegal, by simp only at hle; omega⟩

/-- A frame goes on behind its instruction. -/
theorem FrameOk.goto (h : FrameOk known inFn f sp)
    (ht : t ∈ (decode f.code f.pc).1.targets (decode f.code f.pc).2)
    (hsp : sp' + (decode f.code f.pc).1.operands = sp + (decode f.code f.pc).1.results) :
    FrameOk known inFn { f with pc := t } sp' := by
  obtain ⟨-, -, hle⟩ := h.now
  refine ⟨?_, h.safe.after ⟨ht, ?_⟩⟩
  · change f.vbase + f.nlocals ≤ sp'
    omega
  · change sp' - (f.vbase + f.nlocals) = sp - (f.vbase + f.nlocals) -
      (decode f.code f.pc).1.operands + (decode f.code f.pc).1.results
    omega

/-- A round keeps the machine in order. -/
theorem VmOk.step (hreg : RegSafe reg) (hok : VmOk (Known reg) s) (h : vmStep reg env s = .ok s') :
    VmOk (Known reg) s' := by
  obtain ⟨f, rest, hframes, -, heffect⟩ := vmStep_effect h
  have hall := hok.2
  rw [hframes] at hall
  obtain ⟨hframe, hrest⟩ := hall
  cases heffect with
  | move t ht hframes' hsp _ =>
    rw [VmOk, hframes']
    exact ⟨List.cons_ne_nil _ _, hframe.goto ht hsp, hrest⟩
  | enter si count name callee hi hname hcallee hcode hcount hlocals _ _ hframes' hsp _ =>
    obtain ⟨code, hsome, hsafe⟩ := hreg callee (mem_of_nocLookup hcallee) hcode
    have hnew : FrameOk (Known reg) true (calleeFrame callee (s.sp - count)) s'.sp := by
      refine ⟨Nat.le_of_eq hsp.symm, ?_⟩
      simp only [calleeFrame, hsome, hsp, Nat.sub_self]
      exact hsafe
    have hwait : FrameOk (Known reg) (!rest.isEmpty) { f with pc := (decode f.code f.pc).2 }
        (s.sp - count + 1) := by
      refine hframe.goto ?_ ?_
      · rw [hi]
        exact List.mem_singleton_self _
      · rw [hi]
        change s.sp - count + 1 + count = s.sp + 1
        omega
    rw [VmOk, hframes']
    exact ⟨List.cons_ne_nil _ _, hnew, hwait, hrest⟩
  | leave hi hne hframes' hsp _ =>
    rw [VmOk, hframes', hsp]
    exact ⟨hne, hrest⟩

/-- A round of a machine in order ends the run with no internal error. -/
theorem VmOk.sound (hok : VmOk (Known reg) s) : Sound (vmStep reg env s) := by
  unfold vmStep
  split
  · rename_i hframes
    exact absurd hframes hok.1
  · rename_i f rest hframes
    have hall := hok.2
    rw [hframes] at hall
    obtain ⟨hlt, hlegal, hle⟩ := hall.1.now
    have hops : (decode f.code f.pc).1.operands ≤ s.sp := by omega
    split_ifs with hkbd hpc
    · exact sound_error rfl
    · exact absurd hpc (Nat.not_le_of_lt hlt)
    · refine vmExec_sound hlegal hops fun hin ↦ ?_
      cases rest with
      | nil => exact absurd hin (by decide)
      | cons g rest =>
        simp only [List.length_cons]
        omega

/-! ### Runs -/

theorem VmOk.reach (hreg : RegSafe reg) (hok : VmOk (Known reg) s) (h : VmReach reg env s s') :
    VmOk (Known reg) s' := by
  induction h with
  | refl => exact hok
  | tail _ hstep ih => exact ih.step hreg hstep

theorem VmOk.runLoop (hreg : RegSafe reg) (hok : VmOk (Known reg) s) {fuel : ℕ} {stop : Stop}
    (h : runLoop reg env fuel s = some stop) : ¬ stop.Internal := by
  induction fuel generalizing s with
  | zero => exact absurd h (by rintro ⟨⟩)
  | succ fuel ih =>
    rw [Noc.runLoop] at h
    split at h
    · rename_i s' hstep
      exact ih (hok.step hreg hstep) h
    · rename_i stop' hstep
      obtain rfl := Option.some.inj h
      exact hok.sound _ hstep

/-- The operands of the instruction at the program counter lie above the locals of its frame. -/
def OperandsAbove (s : VmState) : Prop :=
  ∃ f rest, s.frames = f :: rest ∧
    f.vbase + f.nlocals + (decode f.code f.pc).1.operands ≤ s.sp

theorem VmOk.operandsAbove (h : VmOk known s) : OperandsAbove s := by
  obtain ⟨hne, hall⟩ := h
  cases hframes : s.frames with
  | nil => exact absurd hframes hne
  | cons f rest =>
    rw [hframes] at hall
    exact ⟨f, rest, hframes, hall.1.now.2.2⟩

theorem pushZeros_spec {n : ℕ} (h : pushZeros n s = .ok s') :
    s'.sp = s.sp + n ∧ s'.frames = s.frames ∧ s'.iters = s.iters ∧
      (∀ k, k < s.sp → s'.stack k = s.stack k) ∧
      ∀ k, s.sp ≤ k → k < s.sp + n → s'.stack k = 0 := by
  induction n generalizing s with
  | zero =>
    obtain rfl := Except.ok.inj h
    exact ⟨rfl, rfl, rfl, fun _ _ ↦ rfl, fun k hlo hhi ↦ absurd hhi (by omega)⟩
  | succ n ih =>
    obtain ⟨s₁, hpush, hrest⟩ := exists_of_bind_eq_ok h
    obtain rfl := vmPush_eq_ok hpush
    obtain ⟨hsp, hframes, hiters, hbelow, hzero⟩ := ih hrest
    simp only at hsp hbelow hzero
    refine ⟨by omega, hframes, hiters, fun k hk ↦ ?_, fun k hlo hhi ↦ ?_⟩
    · rw [hbelow k (by omega), Function.update_of_ne (by omega)]
    · by_cases hk : k = s.sp
      · rw [hk, hbelow s.sp (by omega), Function.update_self]
      · exact hzero k (by omega) (by omega)

/-- The start of a run: one frame, whose locals are zero. -/
theorem vmStart_spec {chunk : NocFn} {stack : ℕ → U64} (h : vmStart chunk stack = .ok s) :
    ∃ code, chunk.code = some code ∧ s.frames = [⟨chunk, code, 0, 0, chunk.nlocals⟩] ∧
      s.sp = chunk.nlocals ∧ s.iters = 0 ∧ ∀ k, k < chunk.nlocals → s.stack k = 0 := by
  unfold vmStart at h
  split at h
  · exact absurd h (by rintro ⟨⟩)
  · rename_i code hcode
    split_ifs at h
    obtain ⟨s₁, hzeros, h⟩ := exists_of_bind_eq_ok h
    obtain ⟨hsp, -, hiters, -, hzero⟩ := pushZeros_spec hzeros
    obtain rfl := Except.ok.inj h
    simp only [Nat.zero_add] at hsp hzero
    exact ⟨code, hcode, rfl, hsp, hiters, fun k hk ↦ hzero k (Nat.zero_le k) hk⟩

theorem pushZeros_sound (n : ℕ) (s : VmState) : Sound (pushZeros n s) := by
  induction n generalizing s with
  | zero => exact sound_ok s
  | succ n ih => exact (vmPush_sound s 0).bind fun s₁ _ ↦ ih s₁

theorem vmStart_sound (chunk : NocFn) (stack : ℕ → U64) : Sound (vmStart chunk stack) := by
  unfold vmStart
  split
  · exact sound_error rfl
  · split_ifs
    · exact sound_error rfl
    · exact (pushZeros_sound _ _).bind fun s₁ _ ↦ sound_ok _

/-- The machine is in order when it starts a safe chunk. -/
theorem vmOk_start {chunk : NocFn} {stack : ℕ → U64} (hsafe : chunk.Safe known false)
    (h : vmStart chunk stack = .ok s) : VmOk known s := by
  obtain ⟨code, hcode, hframes, hsp, -, -⟩ := vmStart_spec h
  obtain ⟨code', hcode', hsafe⟩ := hsafe
  obtain rfl := Option.some.inj (hcode.symm.trans hcode')
  rw [VmOk, hframes, hsp]
  refine ⟨List.cons_ne_nil _ _, ⟨Nat.le_of_eq (Nat.zero_add _), ?_⟩, trivial⟩
  simp only [Nat.zero_add, Nat.sub_self]
  exact hsafe

/-- In every session and every run of a compiled line, `run_loop` stops with no internal error, and
in every state it reaches the operands of the next instruction lie above the locals of the frame. -/
theorem compiled_run_sound {os : NocOs} {reg' : Registry} {stmts : List Stmt} {chunk : NocFn}
    (hsession : Session reg) (hcompile : nocCompile os reg stmts = (reg', .ok chunk))
    (env : VmEnv) (stack : ℕ → U64) :
    (∀ fuel out, nocVmRun reg' env fuel chunk stack = some out → ¬ out.stop.Internal) ∧
      ∀ s₀ s, vmStart chunk stack = .ok s₀ → VmReach reg' env s₀ s → OperandsAbove s := by
  have hreg : RegSafe reg' := by
    have hreg := hsession.regSafe.nocCompile os stmts
    rwa [hcompile] at hreg
  have hchunk := nocCompile_safe hcompile
  constructor
  · intro fuel out hrun
    unfold nocVmRun at hrun
    split at hrun
    · rename_i stop hstart
      obtain rfl := Option.some.inj hrun
      exact vmStart_sound chunk stack stop hstart
    · rename_i s₀ hstart
      split at hrun
      · exact absurd hrun (by rintro ⟨⟩)
      · rename_i stop hloop
        obtain rfl := Option.some.inj hrun
        exact (vmOk_start hchunk hstart).runLoop hreg hloop
  · intro s₀ s hstart hreach
    exact ((vmOk_start hchunk hstart).reach hreg hreach).operandsAbove

/-- `I64 Mul2(I64 x, I64 y=2) { return x*y; } Mul2(21) && 1;` -/
theorem compiled_run_sound_mul2 :
    ∃ reg' chunk, nocCompile ampleOs userTable
        [mul2, .expr (.logic true (.call (cstr "Mul2") [.lit 21]) (.lit 1))] = (reg', .ok chunk) ∧
      ∀ env stack,
        (∀ fuel out, nocVmRun reg' env fuel chunk stack = some out → ¬ out.stop.Internal) ∧
          ∀ s₀ s, vmStart chunk stack = .ok s₀ → VmReach reg' env s₀ s → OperandsAbove s := by
  obtain ⟨chunk, hchunk⟩ := exists_chunk ampleOs userTable
    [mul2, .expr (.logic true (.call (cstr "Mul2") [.lit 21]) (.lit 1))] (by decide +kernel)
  exact ⟨_, chunk, hchunk, compiled_run_sound session_userTable hchunk⟩

end NoOsKernel.Noc
