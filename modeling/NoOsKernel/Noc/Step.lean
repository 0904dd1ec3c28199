import NoOsKernel.Noc.Compiler
import NoOsKernel.Noc.Depth
import NoOsKernel.Noc.Vm

/-!
# What one round of the machine does

A round that does not end the run moves on in the innermost frame, enters a function or leaves one
(`StepEffect`), and says of each what becomes of the stack. A round whose instruction is legal and
finds its operands ends the run with none of the errors that only inconsistent bytecode can cause.
Everything about runs rests on these two results.
-/

set_option autoImplicit false
set_option relaxedAutoImplicit false

namespace NoOsKernel.Noc

open Lib

/-! ### Effects -/

/-- The frame a call makes. -/
def calleeFrame (callee : NocFn) (vbase : ℕ) : Frame where
  fn := callee
  code := callee.code.getD []
  pc := 0
  vbase := vbase
  nlocals := callee.nlocals

/-- The stack a call makes: locals that got no argument are zero. -/
def calleeStack (stack : ℕ → U64) (callee : NocFn) (vbase count : ℕ) : ℕ → U64 := fun k ↦
  if vbase + count ≤ k ∧ k < vbase + callee.nlocals then 0 else stack k

/-- What the instruction `i` of the innermost frame `f`, which ends at `q`, does to a state. -/
inductive StepEffect (reg : Registry) (f : Frame) (rest : List Frame) (i : Instr) (q : ℕ)
    (s s' : VmState) : Prop
  | move (t : ℕ) (ht : t ∈ i.targets q) (hframes : s'.frames = { f with pc := t } :: rest)
      (hsp : s'.sp + i.operands = s.sp + i.results)
      (hstack : ∀ k, k + i.operands < s.sp → k < f.vbase ∨ f.vbase + f.nlocals ≤ k →
        s'.stack k = s.stack k)
  | enter (si count : ℕ) (name : Name) (callee : NocFn) (hi : i = .call si count)
      (hname : f.fn.strings[si]? = some name) (hcallee : nocLookup reg name = some callee)
      (hcode : callee.builtin = none) (hcount : count ≤ s.sp) (hlocals : count ≤ callee.nlocals)
      (hroom : s.sp - count + callee.nlocals ≤ nocStackSize)
      (hdepth : rest.length + 1 < nocMaxFrames)
      (hframes : s'.frames = calleeFrame callee (s.sp - count) :: { f with pc := q } :: rest)
      (hsp : s'.sp = s.sp - count + callee.nlocals)
      (hstack : s'.stack = calleeStack s.stack callee (s.sp - count) count)
  | leave (hi : i = .ret) (hrest : rest ≠ []) (hframes : s'.frames = rest)
      (hsp : s'.sp = f.vbase + 1)
      (hstack : s'.stack = Function.update s.stack f.vbase (s.stack (s.sp - 1)))

variable {reg : Registry} {env : VmEnv} {f : Frame} {rest : List Frame} {i : Instr} {q : ℕ}
  {s s' : VmState}

theorem vmPush_eq_ok {v : U64} (h : vmPush s v = .ok s') :
    s' = { s with stack := Function.update s.stack s.sp v, sp := s.sp + 1 } := by
  unfold vmPush at h
  split_ifs at h
  exact (Except.ok.inj h).symm

theorem vmPop_eq_ok {r : U64 × VmState} (h : vmPop s = .ok r) :
    0 < s.sp ∧ r = (s.stack (s.sp - 1), { s with sp := s.sp - 1 }) := by
  unfold vmPop at h
  split_ifs at h with hzero
  exact ⟨Nat.pos_of_ne_zero hzero, (Except.ok.inj h).symm⟩

/-- An instruction that replaces `n` operands by one value. -/
theorem StepEffect.replace {v : U64} {n : ℕ} (hs : s.frames = { f with pc := q } :: rest)
    (hn : n ≤ s.sp) (hops : i.operands + 1 = n + i.results) (hle : n ≤ i.operands)
    (hq : q ∈ i.targets q) (h : vmPush { s with sp := s.sp - n } v = .ok s') :
    StepEffect reg f rest i q s s' := by
  obtain rfl := vmPush_eq_ok h
  refine .move q hq hs ?_ fun k hk _ ↦ ?_
  · simp only
    omega
  · exact Function.update_of_ne (by simp only; omega) _ _

/-- The entry into a function of the session. -/
theorem vmEnter_effect {si count : ℕ} {name : Name} {callee : NocFn}
    (hs : s.frames = { f with pc := q } :: rest) (hname : f.fn.strings[si]? = some name)
    (hcallee : nocLookup reg name = some callee) (hcode : callee.builtin = none)
    (hcount : count ≤ s.sp) (h : vmEnter s callee count = .ok s') :
    StepEffect reg f rest (.call si count) q s s' := by
  unfold vmEnter at h
  simp only at h
  split_ifs at h with hdeep hbad hbig
  obtain rfl := Except.ok.inj h
  rw [hs, List.length_cons] at hdeep
  exact .enter si count name callee rfl hname hcallee hcode hcount (Nat.le_of_not_lt hbad)
    (Nat.le_of_not_lt hbig) (Nat.lt_of_not_le hdeep) (congrArg _ hs) rfl rfl

theorem vmCall_effect {si count : ℕ} (hs : s.frames = { f with pc := q } :: rest)
    (h : vmCall reg env s f si count = .ok s') :
    StepEffect reg f rest (.call si count) q s s' := by
  unfold vmCall at h
  split at h
  · exact absurd h (by rintro ⟨⟩)
  · rename_i name hname
    split at h
    · exact absurd h (by rintro ⟨⟩)
    · rename_i callee hcallee
      split_ifs at h with hfew
      split at h
      · rename_i hcode
        exact vmEnter_effect hs hname hcallee hcode (Nat.le_of_not_lt hfew) h
      · split at h
        · exact absurd h (by rintro ⟨⟩)
        · exact .replace hs (Nat.le_of_not_lt hfew) rfl le_rfl (List.mem_singleton_self q) h

/-- A conditional jump. -/
theorem branch_effect {t : ℕ} {b : Bool} (hi : i = .jmpf t ∨ i = .jmpt t)
    (hs : s.frames = { f with pc := q } :: rest) (hpos : 0 < s.sp)
    (h : s' = if b then VmState.setPc { s with sp := s.sp - 1 } t else { s with sp := s.sp - 1 }) :
    StepEffect reg f rest i q s s' := by
  have htargets : i.targets q = [t, q] ∧ i.operands = 1 ∧ i.results = 0 := by
    rcases hi with rfl | rfl
    · exact ⟨rfl, rfl, rfl⟩
    · exact ⟨rfl, rfl, rfl⟩
  obtain ⟨htargets, hops, hres⟩ := htargets
  cases b
  · obtain rfl := h
    refine .move q ?_ hs ?_ fun _ _ _ ↦ rfl
    · rw [htargets]
      exact List.mem_cons_of_mem t (List.mem_singleton_self q)
    · simp only [hops, hres, Bool.false_eq_true, if_false]
      omega
  · obtain rfl := h
    refine .move t ?_ ?_ ?_ fun _ _ _ ↦ rfl
    · rw [htargets]
      exact List.mem_cons_self
    · simp only [VmState.setPc, if_true, hs, List.modifyHead_cons]
    · simp only [VmState.setPc, if_true, hops, hres]
      omega

theorem vmExec_effect (hs : s.frames = { f with pc := q } :: rest)
    (h : vmExec reg env s f i = .ok s') : StepEffect reg f rest i q s s' := by
  cases i with
  | push v => exact .replace hs (Nat.zero_le _) rfl le_rfl (List.mem_singleton_self q) h
  | pushStr si =>
    simp only [vmExec] at h
    split_ifs at h
    exact .replace hs (Nat.zero_le _) rfl le_rfl (List.mem_singleton_self q) h
  | dup =>
    simp only [vmExec] at h
    split_ifs at h
    exact .replace hs (Nat.zero_le _) rfl (Nat.zero_le _) (List.mem_singleton_self q) h
  | pop =>
    simp only [vmExec] at h
    split_ifs at h with hzero
    obtain rfl := Except.ok.inj h
    refine .move q (List.mem_singleton_self q) hs ?_ fun _ _ _ ↦ rfl
    change s.sp - 1 + 1 = s.sp
    omega
  | load slot =>
    simp only [vmExec] at h
    split_ifs at h
    exact .replace hs (Nat.zero_le _) rfl le_rfl (List.mem_singleton_self q) h
  | store slot =>
    obtain ⟨r, hpop, h⟩ := exists_of_bind_eq_ok h
    obtain ⟨hpos, rfl⟩ := vmPop_eq_ok hpop
    simp only at h
    split_ifs at h with hslot
    · exact absurd h (by rintro ⟨⟩)
    · obtain rfl := Except.ok.inj h
      refine .move q (List.mem_singleton_self q) hs ?_ fun k hk hout ↦ ?_
      · change s.sp - 1 + 1 = s.sp
        omega
      · exact Function.update_of_ne (by omega) _ _
  | call si count => exact vmCall_effect hs h
  | ret =>
    simp only [vmExec] at h
    split_ifs at h with hone
    obtain ⟨r, hpop, h⟩ := exists_of_bind_eq_ok h
    obtain ⟨hpos, rfl⟩ := vmPop_eq_ok hpop
    obtain rfl := vmPush_eq_ok h
    refine .leave rfl ?_ ?_ rfl rfl
    · rintro rfl
      exact hone (by rw [hs]; rfl)
    · exact congrArg List.tail hs
  | jmp t =>
    obtain rfl := Except.ok.inj h
    refine .move t (List.mem_singleton_self t) ?_ rfl fun _ _ _ ↦ rfl
    rw [VmState.setPc, hs]
    rfl
  | jmpf t =>
    obtain ⟨r, hpop, h⟩ := exists_of_bind_eq_ok h
    obtain ⟨hpos, rfl⟩ := vmPop_eq_ok hpop
    refine branch_effect (b := decide (s.stack (s.sp - 1) = 0)) (Or.inl rfl) hs hpos ?_
    simpa using (Except.ok.inj h).symm
  | jmpt t =>
    obtain ⟨r, hpop, h⟩ := exists_of_bind_eq_ok h
    obtain ⟨hpos, rfl⟩ := vmPop_eq_ok hpop
    refine branch_effect (b := decide (s.stack (s.sp - 1) ≠ 0)) (Or.inr rfl) hs hpos ?_
    simpa using (Except.ok.inj h).symm
  | bin op =>
    obtain ⟨r, hpop, h⟩ := exists_of_bind_eq_ok h
    obtain ⟨hpos, rfl⟩ := vmPop_eq_ok hpop
    obtain ⟨r', hpop', h⟩ := exists_of_bind_eq_ok h
    obtain ⟨hpos', rfl⟩ := vmPop_eq_ok hpop'
    obtain ⟨v, -, h⟩ := exists_of_bind_eq_ok h
    simp only at hpos' h
    exact .replace (n := 2) hs (by omega) rfl le_rfl (List.mem_singleton_self q) h
  | not =>
    obtain ⟨r, hpop, h⟩ := exists_of_bind_eq_ok h
    obtain ⟨hpos, rfl⟩ := vmPop_eq_ok hpop
    exact .replace (n := 1) hs hpos rfl le_rfl (List.mem_singleton_self q) h
  | neg =>
    obtain ⟨r, hpop, h⟩ := exists_of_bind_eq_ok h
    obtain ⟨hpos, rfl⟩ := vmPop_eq_ok hpop
    exact .replace (n := 1) hs hpos rfl le_rfl (List.mem_singleton_self q) h
  | bnot =>
    obtain ⟨r, hpop, h⟩ := exists_of_bind_eq_ok h
    obtain ⟨hpos, rfl⟩ := vmPop_eq_ok hpop
    exact .replace (n := 1) hs hpos rfl le_rfl (List.mem_singleton_self q) h
  | halt => exact absurd h (by rintro ⟨⟩)
  | unknown op => exact absurd h (by rintro ⟨⟩)

/-- A round of the loop that does not end the run. -/
theorem vmStep_effect (h : vmStep reg env s = .ok s') :
    ∃ f rest, s.frames = f :: rest ∧ f.pc < f.code.length ∧
      StepEffect reg f rest (decode f.code f.pc).1 (decode f.code f.pc).2 s s' := by
  unfold vmStep at h
  split at h
  · exact absurd h (by rintro ⟨⟩)
  · rename_i f rest hframes
    split_ifs at h with hkbd hpc
    refine ⟨f, rest, hframes, Nat.lt_of_not_le hpc, ?_⟩
    have heffect := vmExec_effect rfl h
    -- the effect of the instruction starts from the state with its program counter advanced
    rcases heffect with ⟨t, ht, h₁, h₂, h₃⟩ | ⟨si, n, x, g, h₁, h₂, h₃, h₄, h₅, h₆, h₇, h₈, h₉, h₁₀, h₁₁⟩ |
      ⟨h₁, h₂, h₃, h₄, h₅⟩
    · exact .move t ht h₁ h₂ h₃
    · exact .enter si n x g h₁ h₂ h₃ h₄ h₅ h₆ h₇ h₈ h₉ h₁₀ h₁₁
    · exact .leave h₁ h₂ h₃ h₄ h₅

/-- `OP_PUSH` leaves its value on top. -/
theorem vmStep_push {v : U64} (h : vmStep reg env s = .ok s') (hframes : s.frames = f :: rest)
    (hi : (decode f.code f.pc).1 = .push v) : s'.stack (s'.sp - 1) = v := by
  unfold vmStep at h
  simp only [hframes] at h
  split_ifs at h
  simp only [hi] at h
  obtain rfl := vmPush_eq_ok h
  exact Function.update_self _ _ _

/-! ### Errors -/

/-- Errors that only inconsistent bytecode can cause. -/
def VmError.internal : VmError → Bool
  | .stackUnderflow => true
  | .badSlot => true
  | .badString => true
  | .badFunction => true
  | .unknownFunction => true
  | .tooFewArguments => true
  | .unknownOpcode => true
  | .pcOffEnd => true
  | .returnAtTop => true
  | .noFrame => true
  | _ => false

/-- A run that ends with such an error. -/
def Stop.Internal (stop : Stop) : Prop := ∃ e, stop = .error e ∧ e.internal = true

/-- A result that is no such end. -/
def Sound {α : Type} (r : Vm α) : Prop := ∀ stop, r = .error stop → ¬ stop.Internal

theorem sound_ok {α : Type} (a : α) : Sound (.ok a : Vm α) := by
  rintro stop ⟨⟩

theorem sound_error {α : Type} {e : VmError} (he : e.internal = false) :
    Sound (.error (.error e) : Vm α) := by
  rintro stop h ⟨e', heq, hin⟩
  obtain rfl := (Except.error.inj h).trans heq |> Stop.error.inj
  rw [he] at hin
  exact absurd hin (by decide)

theorem Sound.bind {α β : Type} {x : Vm α} {g : α → Vm β} (hx : Sound x)
    (hg : ∀ a, x = .ok a → Sound (g a)) : Sound (x >>= g) := by
  cases x with
  | error stop =>
    rintro stop' h
    obtain rfl := Except.error.inj h
    exact hx stop rfl
  | ok a => exact hg a rfl

theorem vmPush_sound (s : VmState) (v : U64) : Sound (vmPush s v) := by
  unfold vmPush
  split_ifs
  · exact sound_error rfl
  · exact sound_ok _

theorem vmPop_sound (h : 0 < s.sp) : Sound (vmPop s) := by
  rw [vmPop, if_neg (Nat.pos_iff_ne_zero.mp h)]
  exact sound_ok _

theorem vmBin_sound (op : BinOp) (a b : U64) : Sound (vmBin op a b) := by
  have hdivide : ∀ r, Sound (cpuDivide a b r) := by
    intro r
    unfold cpuDivide
    split_ifs
    · exact sound_error rfl
    · rintro stop h ⟨e, rfl, -⟩
      exact absurd h (by rintro ⟨⟩)
    · exact sound_ok _
  cases op with
  | div => exact hdivide _
  | mod => exact hdivide _
  | _ => exact sound_ok _

theorem vmEnter_sound (s : VmState) (callee : NocFn) (count : ℕ) :
    Sound (vmEnter s callee count) := by
  unfold vmEnter
  simp only
  split_ifs
  · exact sound_error rfl
  · exact sound_error rfl
  · exact sound_error rfl
  · exact sound_ok _

/-- A legal instruction that finds its operands causes no internal error. -/
theorem vmExec_sound {inFn : Bool} (hlegal : Legal (Known reg) f.nlocals f.fn.strings inFn i)
    (hops : i.operands ≤ s.sp) (hin : inFn = true → s.frames.length ≠ 1) :
    Sound (vmExec reg env s f i) := by
  -- the instructions that only replace their topmost operand
  have hone : ∀ g : U64 → U64, 1 ≤ s.sp → Sound (vmPop s >>= fun r ↦ vmPush r.2 (g r.1)) := by
    intro g hpos
    refine (vmPop_sound hpos).bind fun r hr ↦ ?_
    exact vmPush_sound _ _
  cases i with
  | push v => exact vmPush_sound s v
  | pushStr si =>
    rw [vmExec, if_neg (Nat.not_le_of_lt hlegal)]
    exact vmPush_sound _ _
  | dup =>
    rw [vmExec, if_neg (Nat.pos_iff_ne_zero.mp hops)]
    exact vmPush_sound _ _
  | pop =>
    rw [vmExec, if_neg (Nat.pos_iff_ne_zero.mp hops)]
    exact sound_ok _
  | load slot =>
    rw [vmExec, if_neg (Nat.not_le_of_lt hlegal)]
    exact vmPush_sound _ _
  | store slot =>
    refine (vmPop_sound hops).bind fun r hr ↦ ?_
    simp only
    rw [if_neg (Nat.not_le_of_lt hlegal)]
    exact sound_ok _
  | call si count =>
    obtain ⟨name, hname, hknown⟩ := hlegal
    obtain ⟨callee, hcallee⟩ := known_iff.mp hknown
    change count ≤ s.sp at hops
    simp only [vmExec, vmCall, hname, hcallee]
    rw [if_neg (Nat.not_lt_of_le hops)]
    split
    · exact vmEnter_sound _ _ _
    · split
      · exact sound_error rfl
      · exact vmPush_sound _ _
  | ret =>
    rw [vmExec, if_neg (hin hlegal)]
    refine (vmPop_sound hops).bind fun r hr ↦ ?_
    exact vmPush_sound _ _
  | jmp t => exact sound_ok _
  | jmpf t =>
    refine (vmPop_sound hops).bind fun r hr ↦ ?_
    exact sound_ok _
  | jmpt t =>
    refine (vmPop_sound hops).bind fun r hr ↦ ?_
    exact sound_ok _
  | bin op =>
    change 2 ≤ s.sp at hops
    refine (vmPop_sound (by omega)).bind fun r hr ↦ ?_
    obtain ⟨-, rfl⟩ := vmPop_eq_ok hr
    refine (vmPop_sound (show 0 < s.sp - 1 by omega)).bind fun r' hr' ↦ ?_
    exact (vmBin_sound op _ _).bind fun v _ ↦ vmPush_sound _ _
  | not => exact hone (fun a ↦ boolWord (a == 0)) hops
  | neg => exact hone (fun a ↦ -a) hops
  | bnot => exact hone (fun a ↦ ~~~a) hops
  | halt =>
    rintro stop h ⟨e, rfl, -⟩
    exact absurd h (by rintro ⟨⟩)
  | unknown op => exact absurd hlegal id

end NoOsKernel.Noc
