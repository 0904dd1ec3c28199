import NoOsKernel.Noc.Safety

/-!
# Call frames

All frames share one stack. Between the call that pushes a frame and the return that pops it, the
stack below the base of that frame stays as it was, and the return leaves one value on top of it.

While a machine runs, the builtins `Run` and `DraftRun` compile further lines. `Run` copies the
machine away before it executes a script and back behind it, so all that a machine sees of a script
is what has become of the function table: `LiveStep.line`.
-/

set_option autoImplicit false
set_option relaxedAutoImplicit false

namespace NoOsKernel.Noc

open Lib

/-! ### Runs in a session -/

/-- A round of the machine, with builtins that answer as they like, or a line compiled meanwhile. -/
inductive LiveStep : Registry × VmState → Registry × VmState → Prop
  | round {reg : Registry} {s s' : VmState} (env : VmEnv) (h : vmStep reg env s = .ok s') :
    LiveStep (reg, s) (reg, s')
  | line {reg : Registry} {s : VmState} (os : NocOs) (stmts : List Stmt) :
    LiveStep (reg, s) ((nocCompile os reg stmts).1, s)

/-- Some steps lead from a machine to another. -/
def LiveReach : Registry × VmState → Registry × VmState → Prop := Relation.ReflTransGen LiveStep

/-- Some steps lead from a machine to another and never come down to `depth` frames. -/
def LiveWithin (depth : ℕ) : Registry × VmState → Registry × VmState → Prop :=
  Relation.ReflTransGen fun x y ↦ LiveStep x y ∧ depth < y.2.frames.length

variable {os : NocOs} {reg reg' : Registry} {known known' : Name → Prop} {s s' : VmState}
  {x y : Registry × VmState}

theorem known_of_compileLine {c : CComp} {ss : List Stmt} {r : Compiled} {name : Name}
    (h : compileLine os reg c ss = (reg', r)) (hname : Known reg name) : Known reg' name := by
  induction ss generalizing reg c with
  | nil =>
    obtain ⟨rfl, -⟩ := Prod.mk.inj h
    exact hname
  | cons st ss ih =>
    rcases compileLine_cons h with ⟨_, _, _, _, _, _, -, hfn, hrest⟩ | ⟨_, -, hrest⟩ | ⟨e, he⟩
    · exact ih hrest ((compileFuncdecl_spec hfn).1 name hname)
    · exact ih hrest hname
    · obtain ⟨rfl, -⟩ := Prod.mk.inj he
      exact hname

/-- Names stay known behind every line. -/
theorem known_of_nocCompile {stmts : List Stmt} {name : Name} (hname : Known reg name) :
    Known (nocCompile os reg stmts).1 name := by
  unfold nocCompile
  split
  · rename_i reg₁ c₁ hline
    split
    · exact known_of_compileLine hline hname
    · exact known_of_compileLine hline hname
  · rename_i reg₁ e hline
    exact known_of_compileLine hline hname

theorem FramesOk.mono (hknown : ∀ name, known name → known' name) {frames : List Frame} {sp : ℕ}
    (h : FramesOk known frames sp) : FramesOk known' frames sp := by
  induction frames generalizing sp with
  | nil => trivial
  | cons f rest ih =>
    obtain ⟨⟨hbase, hsafe⟩, hrest⟩ := h
    exact ⟨⟨hbase, depthSafe_mono hknown hsafe⟩, ih hrest⟩

theorem LiveReach.of_vmReach {env : VmEnv} (h : VmReach reg env s s') :
    LiveReach (reg, s) (reg, s') := by
  induction h with
  | refl => exact .refl
  | tail _ hstep ih => exact ih.tail (.round env hstep)

/-- The machine and the table it looks functions up in are in order. -/
def LiveOk (x : Registry × VmState) : Prop := RegSafe x.1 ∧ VmOk (Known x.1) x.2

theorem LiveOk.step (hok : LiveOk x) (h : LiveStep x y) : LiveOk y := by
  cases h with
  | round env h => exact ⟨hok.1, hok.2.step hok.1 h⟩
  | line os stmts =>
    refine ⟨hok.1.nocCompile os stmts, hok.2.1, ?_⟩
    exact FramesOk.mono (fun _ ↦ known_of_nocCompile) hok.2.2

theorem LiveOk.reach (hok : LiveOk x) (h : LiveReach x y) : LiveOk y := by
  induction h with
  | refl => exact hok
  | tail _ hstep ih => exact ih.step hstep

/-! ### Inside a call -/

/-- The machine is inside a call with base `vbase` over the frames `outer`: no frame above them
begins below that base, and below it the stack is `below`. -/
structure InsideCall (outer : List Frame) (vbase : ℕ) (below : ℕ → U64) (s : VmState) : Prop where
  frames : ∃ inner callee, s.frames = inner ++ callee :: outer ∧ callee.vbase = vbase ∧
    ∀ f ∈ inner, vbase ≤ f.vbase
  stack : ∀ k < vbase, s.stack k = below k

variable {outer : List Frame} {vbase : ℕ} {below : ℕ → U64}

/-- The innermost frame begins at or above the base, whichever it is. -/
theorem InsideCall.split (h : InsideCall outer vbase below s) {f : Frame} {rest : List Frame}
    (hframes : s.frames = f :: rest) :
    vbase ≤ f.vbase ∧ (f.vbase = vbase ∧ rest = outer ∨
      ∃ inner callee, rest = inner ++ callee :: outer ∧ callee.vbase = vbase ∧
        ∀ g ∈ inner, vbase ≤ g.vbase) := by
  obtain ⟨inner, callee, hall, hbase, hinner⟩ := h.frames
  rw [hframes] at hall
  cases inner with
  | nil =>
    obtain ⟨rfl, rfl⟩ := List.cons.inj hall
    exact ⟨Nat.le_of_eq hbase.symm, Or.inl ⟨hbase, rfl⟩⟩
  | cons g inner =>
    obtain ⟨rfl, rfl⟩ := List.cons.inj hall
    refine ⟨hinner f List.mem_cons_self, Or.inr ⟨inner, callee, rfl, hbase, ?_⟩⟩
    exact fun g hg ↦ hinner g (List.mem_cons_of_mem f hg)

/-- A frame in place of the innermost one, with the same base. -/
theorem InsideCall.frames_goto {f : Frame} {rest : List Frame} (f' : Frame)
    (h : f.vbase = vbase ∧ rest = outer ∨ ∃ inner callee, rest = inner ++ callee :: outer ∧
      callee.vbase = vbase ∧ ∀ g ∈ inner, vbase ≤ g.vbase)
    (hle : vbase ≤ f.vbase) (hbase : f'.vbase = f.vbase) :
    ∃ inner callee, f' :: rest = inner ++ callee :: outer ∧ callee.vbase = vbase ∧
      ∀ g ∈ inner, vbase ≤ g.vbase := by
  rcases h with ⟨heq, rfl⟩ | ⟨inner, callee, rfl, hcallee, hinner⟩
  · exact ⟨[], f', rfl, hbase.trans heq, fun g hg ↦ absurd hg List.not_mem_nil⟩
  · refine ⟨f' :: inner, callee, rfl, hcallee, fun g hg ↦ ?_⟩
    rcases List.mem_cons.mp hg with rfl | hg
    · rwa [hbase]
    · exact hinner g hg

/-- A round inside a call stays inside it, or is the return from it. -/
theorem InsideCall.round {env : VmEnv} (h : InsideCall outer vbase below s)
    (hok : VmOk (Known reg) s) (hstep : vmStep reg env s = .ok s') :
    (outer.length < s'.frames.length ∧ InsideCall outer vbase below s') ∨
      s'.frames = outer ∧ s'.sp = vbase + 1 ∧ s'.stack vbase = s.stack (s.sp - 1) ∧
        ∀ k < vbase, s'.stack k = below k := by
  obtain ⟨f, rest, hframes, -, heffect⟩ := vmStep_effect hstep
  have hall := hok.2
  rw [hframes] at hall
  obtain ⟨-, -, hops⟩ := hall.1.now
  obtain ⟨hle, hsplit⟩ := h.split hframes
  have hlen : outer.length < rest.length + 1 := by
    rcases hsplit with ⟨-, rfl⟩ | ⟨inner, callee, rfl, -, -⟩
    · exact Nat.lt_succ_self _
    · rw [List.length_append, List.length_cons]
      omega
  cases heffect with
  | move t ht hframes' hsp hstack =>
    refine Or.inl ⟨by rwa [hframes', List.length_cons], ?_, fun k hk ↦ ?_⟩
    · rw [hframes']
      exact InsideCall.frames_goto _ hsplit hle rfl
    · rw [← h.stack k hk]
      exact hstack k (by omega) (Or.inl (by omega))
  | enter si count name callee hi hname hcallee hcode hcount hlocals _ _ hframes' hsp hstack =>
    have hbase : f.vbase ≤ s.sp - count := by
      rw [hi] at hops
      change f.vbase + f.nlocals + count ≤ s.sp at hops
      omega
    refine Or.inl ⟨by rw [hframes', List.length_cons, List.length_cons]; omega, ?_, fun k hk ↦ ?_⟩
    · rw [hframes']
      obtain ⟨inner, g, hg, hgbase, hinner⟩ := InsideCall.frames_goto
        { f with pc := (decode f.code f.pc).2 } hsplit hle rfl
      refine ⟨calleeFrame callee (s.sp - count) :: inner, g, by rw [hg]; rfl, hgbase, ?_⟩
      intro u hu
      rcases List.mem_cons.mp hu with rfl | hu
      · exact hle.trans hbase
      · exact hinner u hu
    · rw [hstack, calleeStack, if_neg (by omega)]
      exact h.stack k hk
  | leave hi hne hframes' hsp hstack =>
    rcases hsplit with ⟨heq, rfl⟩ | ⟨inner, callee, rfl, hcallee, hinner⟩
    · refine Or.inr ⟨hframes', by rw [hsp, heq], ?_, fun k hk ↦ ?_⟩
      · rw [hstack, heq, Function.update_self]
      · rw [hstack, Function.update_of_ne (by omega)]
        exact h.stack k hk
    · refine Or.inl ⟨?_, ⟨inner, callee, hframes', hcallee, hinner⟩, fun k hk ↦ ?_⟩
      · rw [hframes', List.length_append, List.length_cons]
        omega
      · rw [hstack, Function.update_of_ne (by omega)]
        exact h.stack k hk

/-- While the frame is there, the machine is inside the call. -/
theorem InsideCall.within (h : InsideCall outer vbase below x.2) (hok : LiveOk x)
    (hwithin : LiveWithin outer.length x y) :
    LiveOk y ∧ InsideCall outer vbase below y.2 := by
  induction hwithin with
  | refl => exact ⟨hok, h⟩
  | tail _ hstep ih =>
    obtain ⟨hok', h'⟩ := ih
    refine ⟨hok'.step hstep.1, ?_⟩
    obtain ⟨hlive, hdeep⟩ := hstep
    cases hlive with
    | round env hround =>
      rcases h'.round hok'.2 hround with ⟨-, hin⟩ | ⟨hframes, -⟩
      · exact hin
      · rw [hframes] at hdeep
        exact absurd hdeep (Nat.lt_irrefl _)
    | line os stmts => exact h'

/-! ### Calls -/

/-- The step executes an `OP_CALL` with `count` arguments that pushes a frame with base `vbase` over
the frames `outer`. -/
def PushesFrame (x y : Registry × VmState) (outer : List Frame) (vbase count : ℕ) : Prop :=
  ∃ f rest si callee, x.2.frames = f :: rest ∧ (decode f.code f.pc).1 = .call si count ∧
    outer = { f with pc := (decode f.code f.pc).2 } :: rest ∧
    y.2.frames = calleeFrame callee vbase :: outer ∧ vbase + count = x.2.sp

/-- A step that adds a frame is an `OP_CALL`. -/
theorem LiveStep.pushesFrame (h : LiveStep x y)
    (hmore : x.2.frames.length < y.2.frames.length) :
    ∃ outer vbase count, PushesFrame x y outer vbase count ∧
      ∀ k < vbase, y.2.stack k = x.2.stack k := by
  cases h with
  | line os stmts => exact absurd hmore (Nat.lt_irrefl _)
  | round env h =>
    obtain ⟨f, rest, hframes, -, heffect⟩ := vmStep_effect h
    simp only [hframes, List.length_cons] at hmore
    cases heffect with
    | move t ht hframes' _ _ =>
      rw [hframes', List.length_cons] at hmore
      omega
    | enter si count name callee hi _ _ _ hcount _ _ _ hframes' hsp hstack =>
      refine ⟨_, _, count, ⟨f, rest, si, callee, hframes, hi, rfl, hframes', ?_⟩, fun k hk ↦ ?_⟩
      · exact Nat.sub_add_cancel hcount
      · rw [hstack, calleeStack, if_neg (by omega)]
    | leave _ _ hframes' _ _ =>
      rw [hframes'] at hmore
      omega

/-- In every session and every run of a compiled line, with whatever lines are compiled meanwhile:
from the `OP_CALL` that pushes a frame to the `OP_RET` that pops it, the stack below the base of the
frame is what it was before the call; the return leaves one value there, the returned one. Builtins
that write raw memory are taken to leave the stack and the frames of the machine alone. -/
theorem call_frames_isolated {stmts : List Stmt} {chunk : NocFn} (hsession : Session reg)
    (hcompile : nocCompile os reg stmts = (reg', .ok chunk)) {stack : ℕ → U64}
    (hstart : vmStart chunk stack = .ok s) (hreach : LiveReach (reg', s) x) (hcall : LiveStep x y)
    (hpush : x.2.frames.length < y.2.frames.length) :
    ∃ outer vbase count, PushesFrame x y outer vbase count ∧
      ∀ z, LiveWithin outer.length y z →
        (∀ k < vbase, z.2.stack k = x.2.stack k) ∧
        ∀ w, LiveStep z w → w.2.frames.length ≤ outer.length →
          w.2.frames = outer ∧ w.2.sp = vbase + 1 ∧
            w.2.stack vbase = z.2.stack (z.2.sp - 1) ∧
            ∀ k < vbase, w.2.stack k = x.2.stack k := by
  have hreg : RegSafe reg' := by
    have hreg := hsession.regSafe.nocCompile os stmts
    rwa [hcompile] at hreg
  have hok : LiveOk x := LiveOk.reach ⟨hreg, vmOk_start (nocCompile_safe hcompile) hstart⟩ hreach
  obtain ⟨outer, vbase, count, hframe, hbelow⟩ := hcall.pushesFrame hpush
  refine ⟨outer, vbase, count, hframe, fun z hz ↦ ?_⟩
  have hin : InsideCall outer vbase x.2.stack y.2 := by
    obtain ⟨f, rest, si, callee, -, -, -, hframes, -⟩ := hframe
    exact ⟨⟨[], _, hframes, rfl, fun g hg ↦ absurd hg List.not_mem_nil⟩, hbelow⟩
  obtain ⟨hokz, hinz⟩ := hin.within (hok.step hcall) hz
  refine ⟨hinz.stack, fun w hw hpop ↦ ?_⟩
  cases hw with
  | round env hround =>
    rcases hinz.round hokz.2 hround with ⟨hdeep, -⟩ | hleft
    · exact absurd hdeep (Nat.not_lt_of_le hpop)
    · exact hleft
  | line os stmts =>
    -- a line meanwhile leaves the frames alone
    obtain ⟨inner, callee, hframes, -, -⟩ := hinz.frames
    have hlen := congrArg List.length hframes
    rw [List.length_append, List.length_cons] at hlen
    simp only at hpop hlen
    omega

/-- Whether the third round of a line pushes a frame. -/
def callsThird : Registry × Except CompileError NocFn → Bool
  | (reg, .ok chunk) =>
    match vmStart chunk fun _ ↦ 0 with
    | .ok s =>
      match vmRounds reg quietEnv 2 s with
      | .ok x =>
        match vmStep reg quietEnv x with
        | .ok y => decide (x.frames.length < y.frames.length)
        | .error _ => false
      | .error _ => false
    | .error _ => false
  | _ => false

/-- `I64 Mul2(I64 x, I64 y=2) { return x*y; } Mul2(21);` -/
theorem call_frames_isolated_mul2 :
    ∃ x y : Registry × VmState, x.2.frames.length < y.2.frames.length ∧
      ∃ outer vbase count, PushesFrame x y outer vbase count ∧
        ∀ z, LiveWithin outer.length y z →
          (∀ k < vbase, z.2.stack k = x.2.stack k) ∧
          ∀ w, LiveStep z w → w.2.frames.length ≤ outer.length →
            w.2.frames = outer ∧ w.2.sp = vbase + 1 ∧
              w.2.stack vbase = z.2.stack (z.2.sp - 1) ∧
              ∀ k < vbase, w.2.stack k = x.2.stack k := by
  have hthird : callsThird (nocCompile ampleOs userTable
      [mul2, .expr (.call (cstr "Mul2") [.lit 21])]) = true := by decide +kernel
  unfold callsThird at hthird
  split at hthird
  · rename_i reg' chunk hcompile
    split at hthird
    · rename_i s hstart
      split at hthird
      · rename_i x hrounds
        split at hthird
        · rename_i y hstep
          have hpush := of_decide_eq_true hthird
          exact ⟨(reg', x), (reg', y), hpush, call_frames_isolated session_userTable hcompile hstart
            (.of_vmReach (.of_vmRounds hrounds)) (.round quietEnv hstep) hpush⟩
        · cases hthird
      · cases hthird
    · cases hthird
  · cases hthird

end NoOsKernel.Noc
