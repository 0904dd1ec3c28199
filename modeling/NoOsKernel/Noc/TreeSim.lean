import NoOsKernel.Lib.Simulation
import NoOsKernel.Noc.TreeExec

/-!
# The machine runs programs as trees

A run of the machine and a run of the trees follow each other step by step. The frames of the two
correspond (`FramesSim`): the code of each does what is left to do, and its variables and values are
on the stack, above those of its callers. The machine takes no step where the trees replace something
by its parts, and the trees take none where the machine jumps.
-/

set_option autoImplicit false
set_option relaxedAutoImplicit false

namespace NoOsKernel.Noc

open Lib

/-! ### Runs of the machine -/

/-- A round of the machine with what may come from outside, or a line compiled meanwhile. -/
inductive RunStep (o : Outside) : Registry × VmState → Registry × VmState → Prop
  | round {reg : Registry} {s s' : VmState} (env : VmEnv) (henv : o.Allows env)
    (h : vmStep reg env s = .ok s') : RunStep o (reg, s) (reg, s')
  | line {reg : Registry} {s : VmState} (os : NocOs) {stmts : List Stmt} (h : o.lines stmts) :
    RunStep o (reg, s) ((nocCompile os reg stmts).1, s)

/-- Some of these steps. -/
def RunReach (o : Outside) : Registry × VmState → Registry × VmState → Prop :=
  Relation.ReflTransGen (RunStep o)

variable {o : Outside} {env : VmEnv} {reg : Registry} {τ : Image} {p q t : ℕ} {E : Vars}
  {v : U64} {vs : List U64} {stack stack' : ℕ → U64} {s s' : VmState} {f : Frame} {i : Instr}
  {rest : List Frame} {g : TreeFrame} {outer : List TreeFrame} {more ts : List Todo} {top : ℕ}

theorem RunStep.live {x y : Registry × VmState} (h : RunStep o x y) : LiveStep x y := by
  cases h with
  | round env _ h => exact .round env h
  | @line reg s os stmts _ => exact .line os stmts

theorem RunReach.live {x y : Registry × VmState} (h : RunReach o x y) : LiveReach x y :=
  Relation.ReflTransGen.mono (fun _ _ ↦ RunStep.live) _ _ h

/-- The machine behind the instruction of its innermost frame. -/
def VmState.advance (s : VmState) (f : Frame) (rest : List Frame) (q : ℕ) : VmState :=
  { s with frames := { f with pc := q } :: rest, iters := s.iters + 1 }

/-- A round is a poll of the keyboard and an instruction. -/
theorem vmStep_eq (hframes : s.frames = f :: rest) (hi : InstrAt f.code f.pc i q) :
    vmStep reg env s =
      if s.iters % 256 = 0 ∧ env.kbd s.iters = true then .error (.error .interrupted)
      else vmExec reg env (s.advance f rest q) f i := by
  unfold vmStep
  rw [hframes]
  simp only
  rw [if_neg (Nat.not_le_of_lt hi.lt_length), hi.decode]
  rfl

/-- What a round that goes on has executed. -/
theorem exec_of_vmStep (hframes : s.frames = f :: rest) (h : vmStep reg env s = .ok s')
    (hi : InstrAt f.code f.pc i q) : vmExec reg env (s.advance f rest q) f i = .ok s' := by
  rw [vmStep_eq hframes hi] at h
  split_ifs at h
  exact h

/-- Without a key the instruction is executed. -/
theorem RunReach.exec (hframes : s.frames = f :: rest) (hi : InstrAt f.code f.pc i q)
    (henv : o.Allows env) (hkbd : ∀ n, env.kbd n = false)
    (h : vmExec reg env (s.advance f rest q) f i = .ok s') : RunReach o (reg, s) (reg, s') := by
  refine .single (.round env henv ?_)
  rw [vmStep_eq hframes hi, hkbd, if_neg (fun hkey ↦ absurd hkey.2 Bool.false_ne_true)]
  exact h

/-- Jumps alone lead from a position to another. -/
def Jumps (code : List Byte) : ℕ → ℕ → Prop :=
  Relation.ReflTransGen fun p t ↦ ∃ q, InstrAt code p (.jmp t) q

/-- The machine takes jumps. -/
theorem RunReach.of_jumps (o : Outside) (reg : Registry) (hframes : s.frames = f :: rest)
    (h : Jumps f.code f.pc p) :
    ∃ s', RunReach o (reg, s) (reg, s') ∧ s'.frames = { f with pc := p } :: rest ∧
      s'.stack = s.stack ∧ s'.sp = s.sp := by
  obtain ⟨env, henv, hkbd⟩ := o.exists_allowed
  induction h with
  | refl => exact ⟨s, .refl, hframes, rfl, rfl⟩
  | @tail m t _ hjmp ih =>
    obtain ⟨s₁, hreach, hframes₁, hstack, hsp⟩ := ih
    obtain ⟨q, hi⟩ := hjmp
    refine ⟨s₁.advance f rest t, hreach.trans ?_, rfl, hstack, hsp⟩
    exact RunReach.exec hframes₁ hi henv hkbd rfl

/-! ### The thing that is next -/

/-- Behind some jumps stands the code of the first thing. -/
theorem WorkAt.find_act {a : Todo} (h : WorkAt τ (a :: more) p) (hret : a ≠ .ret)
    (hbranch : ∀ yes no, a ≠ .branch yes no) :
    ∃ p' q, Jumps τ.code p p' ∧ TodoAt τ a p' q ∧ WorkAt τ more q := by
  generalize hall : a :: more = all at h
  induction h with
  | halt _ => cases hall
  | ret _ => exact absurd (List.cons.inj hall).1 hret
  | jmp hi _ ih =>
    obtain ⟨p', q', hjumps, hrest⟩ := ih hall
    exact ⟨p', q', .head ⟨_, hi⟩ hjumps, hrest⟩
  | jmpf _ _ _ _ _ => exact absurd (List.cons.inj hall).1 (hbranch _ _)
  | jmpt _ _ _ _ _ => exact absurd (List.cons.inj hall).1 (hbranch _ _)
  | next ha hmore _ =>
    obtain ⟨rfl, rfl⟩ := List.cons.inj hall
    exact ⟨_, _, .refl, ha, hmore⟩

/-- Behind some jumps stands the jump of a branch. -/
theorem WorkAt.find_branch {yes no : List Todo} (h : WorkAt τ (.branch yes no :: more) p) :
    ∃ p' t q, Jumps τ.code p p' ∧
      ((InstrAt τ.code p' (.jmpf t) q ∧ WorkAt τ (yes ++ more) q ∧ WorkAt τ (no ++ more) t) ∨
        InstrAt τ.code p' (.jmpt t) q ∧ WorkAt τ (yes ++ more) t ∧ WorkAt τ (no ++ more) q) := by
  generalize hall : Todo.branch yes no :: more = all at h
  induction h with
  | halt _ => cases hall
  | ret _ => cases (List.cons.inj hall).1
  | jmp hi _ ih =>
    obtain ⟨p', t', q', hjumps, hrest⟩ := ih hall
    exact ⟨p', t', q', .head ⟨_, hi⟩ hjumps, hrest⟩
  | jmpf hi hyes hno _ _ =>
    obtain ⟨hbranch, rfl⟩ := List.cons.inj hall
    obtain ⟨rfl, rfl⟩ := Todo.branch.inj hbranch
    exact ⟨_, _, _, .refl, Or.inl ⟨hi, hyes, hno⟩⟩
  | jmpt hi hyes hno _ _ =>
    obtain ⟨hbranch, rfl⟩ := List.cons.inj hall
    obtain ⟨rfl, rfl⟩ := Todo.branch.inj hbranch
    exact ⟨_, _, _, .refl, Or.inr ⟨hi, hyes, hno⟩⟩
  | next ha _ _ =>
    obtain ⟨rfl, -⟩ := List.cons.inj hall
    exact absurd ha id

/-- Behind some jumps stands the return. -/
theorem WorkAt.find_ret (h : WorkAt τ (.ret :: more) p) :
    ∃ p' q, Jumps τ.code p p' ∧ InstrAt τ.code p' .ret q := by
  generalize hall : Todo.ret :: more = all at h
  induction h with
  | halt _ => cases hall
  | ret hi => exact ⟨_, _, .refl, hi⟩
  | jmp hi _ ih =>
    obtain ⟨p', q', hjumps, hrest⟩ := ih hall
    exact ⟨p', q', .head ⟨_, hi⟩ hjumps, hrest⟩
  | jmpf _ _ _ _ _ => cases (List.cons.inj hall).1
  | jmpt _ _ _ _ _ => cases (List.cons.inj hall).1
  | next ha _ _ =>
    obtain ⟨rfl, -⟩ := List.cons.inj hall
    exact absurd ha id

/-! ### Frames -/

/-- A frame of the machine, whose part of the stack ends at `top`, is one of the trees. -/
def FrameSim (stack : ℕ → U64) (f : Frame) (g : TreeFrame) (top : ℕ) : Prop :=
  ∃ τ, f.Runs τ ∧ g.slots = τ.syms.length ∧ Cells τ stack f.vbase g.vars g.values top ∧
    WorkAt τ g.todo f.pc

/-- All frames correspond, and their parts of the stack lie on each other. -/
def FramesSim (stack : ℕ → U64) : List Frame → List TreeFrame → ℕ → Prop
  | [], [], top => top = 0
  | f :: fs, g :: gs, top => FrameSim stack f g top ∧ FramesSim stack fs gs f.vbase
  | _, _, _ => False

theorem FramesSim.congr {fs : List Frame} {gs : List TreeFrame} (h : FramesSim stack fs gs top)
    (hstack : ∀ k < top, stack' k = stack k) : FramesSim stack' fs gs top := by
  induction fs generalizing gs top with
  | nil =>
    cases gs with
    | nil => exact h
    | cons g gs => exact absurd h id
  | cons f fs ih =>
    cases gs with
    | nil => exact absurd h id
    | cons g gs =>
      obtain ⟨⟨τ, hruns, hslots, hcells, hwork⟩, hrest⟩ := h
      have htop := hcells.top_eq
      refine ⟨⟨τ, hruns, hslots, hcells.congr fun k _ hk ↦ hstack k hk, hwork⟩, ?_⟩
      exact ih hrest fun k hk ↦ hstack k (by omega)

/-- The stack of the machine is as large as what the trees hold. -/
theorem FramesSim.size {fs : List Frame} {gs : List TreeFrame} (h : FramesSim stack fs gs top) :
    treeSize gs = top ∧ gs.length = fs.length := by
  induction fs generalizing gs top with
  | nil =>
    cases gs with
    | nil => exact ⟨h.symm, rfl⟩
    | cons g gs => exact absurd h id
  | cons f fs ih =>
    cases gs with
    | nil => exact absurd h id
    | cons g gs =>
      obtain ⟨⟨τ, hruns, hslots, hcells, hwork⟩, hrest⟩ := h
      obtain ⟨hsize, hlen⟩ := ih hrest
      have htop := hcells.top_eq
      refine ⟨?_, congrArg (· + 1) hlen⟩
      rw [treeSize] at hsize
      rw [treeSize, List.map_cons, List.sum_cons, hsize, hslots]
      omega

/-- A frame that has gone on behind its instruction. -/
theorem Lands.framesSim (h : Lands τ f.vbase (s.advance f rest q) s' E vs) (hruns : f.Runs τ)
    (houter : FramesSim s.stack rest outer f.vbase) (hwork : WorkAt τ ts q) :
    FramesSim s'.stack s'.frames (⟨ts, E, vs, τ.syms.length⟩ :: outer) s'.sp := by
  rw [h.frames]
  exact ⟨⟨τ, ⟨hruns.code, hruns.strings, hruns.nlocals⟩, rfl, h.cells, hwork⟩,
    houter.congr h.below⟩

/-- A function that has been entered, over its caller. -/
def VmState.entered (s : VmState) (callee : NocFn) (count : ℕ) : VmState :=
  { s with
    stack := calleeStack s.stack callee (s.sp - count) count
    sp := s.sp - count + callee.nlocals
    frames := calleeFrame callee (s.sp - count) :: s.frames }

theorem vmEnter_eq_ok_iff {callee : NocFn} {count : ℕ} :
    vmEnter s callee count = .ok s' ↔ s.frames.length < nocMaxFrames ∧ count ≤ callee.nlocals ∧
      s.sp - count + callee.nlocals ≤ nocStackSize ∧ s' = s.entered callee count := by
  simp only [vmEnter]
  split_ifs with hdeep hbad hbig
  · exact ⟨nofun, fun h ↦ absurd h.1 (Nat.not_lt_of_le hdeep)⟩
  · exact ⟨nofun, fun h ↦ absurd h.2.1 (Nat.not_le_of_lt hbad)⟩
  · exact ⟨nofun, fun h ↦ absurd h.2.2.1 (Nat.not_le_of_lt hbig)⟩
  · refine ⟨fun h ↦ ⟨Nat.lt_of_not_le hdeep, Nat.le_of_not_lt hbad, Nat.le_of_not_lt hbig,
      (Except.ok.inj h).symm⟩, ?_⟩
    rintro ⟨-, -, -, rfl⟩
    rfl

/-- The variables of a function that has been entered are its arguments and zeros. -/
theorem framesSim_entered {os : NocOs} {known : Registry} {type : NType} {name : Name}
    {params : Params} {body : List Stmt} {nalloc : ℕ} {callee : NocFn} {args : List U64}
    (hsource : (Source.decl os known type name params body nalloc).Makes callee)
    (hcells : Cells τ s.stack f.vbase E (args.reverse ++ vs) s.sp) (hruns : f.Runs τ)
    (houter : FramesSim s.stack rest outer f.vbase) (hwork : WorkAt τ more q) :
    FramesSim ((s.advance f rest q).entered callee args.length).stack
      ((s.advance f rest q).entered callee args.length).frames
      (bodyFrame (headers known) params body args :: ⟨more, E, vs, τ.syms.length⟩ :: outer)
      ((s.advance f rest q).entered callee args.length).sp := by
  obtain ⟨sub, hsub, rfl⟩ := hsource
  obtain ⟨hsyms, hbody⟩ := compileBody_work hsub
  have htop := hcells.top_eq
  rw [List.length_append, List.length_reverse] at htop
  have hlands : Lands τ f.vbase s (s.popped args.length) E vs := hcells.lands.popList
  have hbelow : ∀ k < s.sp - args.length, calleeStack s.stack (userFn type name params.val sub)
      (s.sp - args.length) args.length k = s.stack k := by
    intro k hk
    rw [calleeStack, if_neg (by omega)]
  refine ⟨⟨sub.image, ⟨rfl, rfl, rfl⟩, congrArg List.length hsyms.symm, ⟨?_, trivial, rfl⟩,
      hbody⟩,
    ⟨τ, ⟨hruns.code, hruns.strings, hruns.nlocals⟩, rfl, ?_, hwork⟩, ?_⟩
  · intro x k hk
    have hk' : resolveVar (bodySyms params body) x = some k := by
      rw [← hsyms]
      exact hk
    have hlt : k < sub.syms.length := resolveVar_lt hk
    change calleeStack s.stack (userFn type name params.val sub) (s.sp - args.length) args.length
      (s.sp - args.length + k) = argVars (bodySyms params body) args x
    rw [argVars, hk']
    simp only
    by_cases harg : k < args.length
    · rw [calleeStack, if_neg (by omega),
        show s.sp - args.length + k = f.vbase + τ.syms.length + vs.length + k by omega,
        hcells.piled.append.1 k _ (List.getElem?_eq_getElem harg), List.getD_eq_getElem?_getD,
        List.getElem?_eq_getElem harg]
      rfl
    · have hzero : s.sp - args.length + k < s.sp - args.length +
          (userFn type name params.val sub).nlocals := Nat.add_lt_add_left hlt _
      rw [calleeStack, if_pos ⟨by omega, hzero⟩, List.getD_eq_getElem?_getD,
        List.getElem?_eq_none (Nat.le_of_not_lt harg)]
      rfl
  · exact hlands.cells.congr fun k _ hk ↦ hbelow k hk
  · exact houter.congr fun k hk ↦ hbelow k (by omega)

/-- A value that is returned is pushed for the caller. -/
theorem FramesSim.returned {rest : List Frame} {more : List Todo} {n : ℕ}
    (h : FramesSim s.stack rest (⟨more, E, vs, n⟩ :: outer) f.vbase) (v : U64) :
    FramesSim (VmState.pushed { s with sp := f.vbase, frames := rest } v).stack rest
      (⟨more, E, v :: vs, n⟩ :: outer) (f.vbase + 1) := by
  cases rest with
  | nil => exact absurd h id
  | cons f' rest =>
    obtain ⟨⟨τ, hruns, hslots, hcells, hwork⟩, houter⟩ := h
    have hlands : Lands τ f'.vbase { s with sp := f.vbase, frames := f' :: rest }
        { s with sp := f.vbase, frames := f' :: rest } E vs := ⟨hcells, rfl, fun _ _ ↦ rfl⟩
    have hpushed := hlands.push v
    exact ⟨⟨τ, hruns, hslots, hpushed.cells, hwork⟩, houter.congr hpushed.below⟩

/-! ### Steps -/

/-- The trees and the machine are at the same place. -/
structure TreeSim (y : Registry × List TreeFrame) (x : Registry × VmState) : Prop where
  table : y.1 = x.1
  ok : LiveOk x
  compiled : RegCompiled x.1
  frames : FramesSim x.2.stack x.2.frames y.2 x.2.sp
  room : HasRoomFor y.2

variable {gs : List TreeFrame} {y y' : Registry × List TreeFrame} {x x' : Registry × VmState}

/-- The innermost frame of the machine, with the variables and values of the trees. -/
structure InFrame (τ : Image) (s : VmState) (f : Frame) (rest : List Frame) (E : Vars)
    (vs : List U64) (outer : List TreeFrame) : Prop where
  frames : s.frames = f :: rest
  runs : f.Runs τ
  cells : Cells τ s.stack f.vbase E vs s.sp
  outer : FramesSim s.stack rest outer f.vbase
  full : s.sp ≤ nocStackSize
  deep : rest.length + 1 ≤ nocMaxFrames

theorem TreeSim.inFrame (h : TreeSim (reg, gs) (reg, s)) :
    ∃ f rest ts E vs outer τ, gs = ⟨ts, E, vs, τ.syms.length⟩ :: outer ∧
      InFrame τ s f rest E vs outer ∧ WorkAt τ ts f.pc := by
  have hframes := h.frames
  have hsize := hframes.size
  have hfull : s.sp ≤ nocStackSize := hsize.1 ▸ h.room.1
  have hdeep : s.frames.length ≤ nocMaxFrames := hsize.2 ▸ h.room.2
  cases hs : s.frames with
  | nil => exact absurd hs h.ok.2.1
  | cons f rest =>
    rw [hs] at hframes hdeep
    cases gs with
    | nil => exact absurd hframes id
    | cons g outer =>
      obtain ⟨ts, E, vs, n⟩ := g
      obtain ⟨⟨τ, hruns, hslots, hcells, hwork⟩, houter⟩ := hframes
      obtain rfl : n = τ.syms.length := hslots
      exact ⟨f, rest, ts, E, vs, outer, τ, rfl, ⟨hs, hruns, hcells, houter, hfull, hdeep⟩, hwork⟩

/-- Some steps of the trees lead to where the machine is. -/
def Matched (o : Outside) (reg : Registry) (gs : List TreeFrame) (s : VmState) : Prop :=
  ∃ gs', Relation.ReflGen (TreeStep o) (reg, gs) (reg, gs') ∧
    FramesSim s.stack s.frames gs' s.sp ∧ s.sp ≤ nocStackSize ∧ s.frames.length ≤ nocMaxFrames

/-- The machine behind the instruction, before anything is done to the stack. -/
theorem InFrame.lands (h : InFrame τ s f rest E vs outer) (q : ℕ) :
    Lands τ f.vbase (s.advance f rest q) (s.advance f rest q) E vs :=
  ⟨h.cells, rfl, fun _ _ ↦ rfl⟩

theorem InFrame.exec_jmp (h : InFrame τ s f rest E vs outer) (hwork : WorkAt τ ts t)
    (hexec : vmExec reg env (s.advance f rest q) f (.jmp t) = .ok s') :
    Matched o reg (⟨ts, E, vs, τ.syms.length⟩ :: outer) s' := by
  obtain rfl := Except.ok.inj hexec
  exact ⟨_, .refl, (h.lands t).framesSim h.runs h.outer hwork, h.full, h.deep⟩

/-- A step that ends in the same frame. -/
theorem Matched.of_lands {E' : Vars} {vs' : List U64} (h : InFrame τ s f rest E vs outer)
    (htree : TreeStep o (reg, ⟨ts, E, vs, τ.syms.length⟩ :: outer)
      (reg, ⟨more, E', vs', τ.syms.length⟩ :: outer))
    (hlands : Lands τ f.vbase (s.advance f rest q) s' E' vs') (hsp : s'.sp ≤ nocStackSize)
    (hwork : WorkAt τ more q) : Matched o reg (⟨ts, E, vs, τ.syms.length⟩ :: outer) s' := by
  refine ⟨_, .single htree, hlands.framesSim h.runs h.outer hwork, hsp, ?_⟩
  rw [hlands.frames]
  exact h.deep

/-- The target of a conditional jump. -/
theorem WorkAt.taken {yes no : List Todo} (hyes : WorkAt τ (yes ++ more) q)
    (hno : WorkAt τ (no ++ more) t) (v : U64) :
    WorkAt τ ((if v = 0 then no else yes) ++ more) (if v = 0 then t else q) := by
  split_ifs
  · exact hno
  · exact hyes

theorem InFrame.jmpf_eq (h : InFrame τ s f rest E (v :: vs) outer) :
    vmExec reg env (s.advance f rest q) f (.jmpf t) =
      .ok ((s.advance f rest (if v = 0 then t else q)).popped 1) := by
  rw [(h.lands q).cells.exec_jmpf]
  by_cases hv : v = 0
  · rw [if_pos hv, if_pos hv]
    rfl
  · rw [if_neg hv, if_neg hv]

theorem InFrame.jmpt_eq (h : InFrame τ s f rest E (v :: vs) outer) :
    vmExec reg env (s.advance f rest q) f (.jmpt t) =
      .ok ((s.advance f rest (if v = 0 then q else t)).popped 1) := by
  rw [(h.lands q).cells.exec_jmpt]
  by_cases hv : v = 0
  · rw [if_neg (not_not.mpr hv), if_pos hv]
  · rw [if_pos hv, if_neg hv]
    rfl

/-- A branch. -/
theorem InFrame.branch {yes no : List Todo} (h : InFrame τ s f rest E (v :: vs) outer)
    (hwork : WorkAt τ ((if v = 0 then no else yes) ++ more) t) :
    Matched o reg (⟨.branch yes no :: more, E, v :: vs, τ.syms.length⟩ :: outer)
      ((s.advance f rest t).popped 1) :=
  .of_lands h .branch (h.lands t).pop ((Nat.sub_le _ _).trans h.full) hwork

theorem InFrame.exec_ret (h : InFrame τ s f rest E (v :: vs) outer)
    (hexec : vmExec reg env (s.advance f rest q) f .ret = .ok s') :
    Matched o reg (⟨.ret :: more, E, v :: vs, τ.syms.length⟩ :: outer) s' := by
  have houter := h.outer
  cases rest with
  | nil => cases hexec
  | cons f' rest =>
    cases outer with
    | nil => exact absurd houter id
    | cons g' outer =>
      obtain ⟨ts', E', vs', n'⟩ := g'
      have hmany : (s.advance f (f' :: rest) q).frames.length ≠ 1 := by
        change rest.length + 1 + 1 ≠ 1
        omega
      rw [vmExec, if_neg hmany, (h.lands q).cells.vmPop_eq] at hexec
      obtain ⟨hroom, rfl⟩ := vmPush_eq_ok_iff.mp hexec
      exact ⟨_, .single .ret, houter.returned v, hroom, (Nat.le_succ _).trans h.deep⟩

/-- A call enters a function of the session or asks a builtin. -/
theorem InFrame.exec_call {x : Name} {args : List U64} {si : ℕ}
    (h : InFrame τ s f rest E (args.reverse ++ vs) outer) (hcompiled : RegCompiled reg)
    (henv : o.Allows env) (hsi : τ.strings[si]? = some x) (hwork : WorkAt τ more q)
    (hi : InstrAt τ.code p (.call si args.length) q)
    (hexec : vmExec reg env (s.advance f rest q) f (.call si args.length) = .ok s') :
    Matched o reg (⟨.call x args.length :: more, E, args.reverse ++ vs, τ.syms.length⟩ :: outer)
      s' := by
  have hname : f.fn.strings[si]? = some x := by rwa [h.runs.strings]
  cases hcallee : nocLookup reg x with
  | none =>
    simp only [vmExec, vmCall, hname, hcallee] at hexec
    cases hexec
  | some callee =>
    cases hcode : callee.builtin with
    | none =>
      rw [(h.lands q).cells.exec_enter hname hcallee hcode] at hexec
      obtain ⟨hdepth, hargs, hroom, rfl⟩ := vmEnter_eq_ok_iff.mp hexec
      obtain ⟨os, known, type, name, params, body, nalloc, hsource⟩ :=
        hcompiled callee (mem_of_nocLookup hcallee) hcode
      refine ⟨_, .single (.enter hcallee hsource ?_),
        framesSim_entered hsource h.cells h.runs h.outer hwork, hroom, hdepth⟩
      obtain ⟨sub, hsub, rfl⟩ := hsource
      rw [← (compileBody_work hsub).1]
      exact hargs
    | some index =>
      have hat : TodoAt τ (.call x args.length) p q := ⟨si, hsi, hi⟩
      obtain ⟨v, hanswer, hlands, hsp⟩ := hat.exec_builtin h.runs henv (h.lands q).cells hcallee
        hcode fun i hi' ↦ by rwa [← (Prod.mk.inj (hi'.decode.symm.trans hi.decode)).1] at hexec
      exact .of_lands h (.act (.builtin hcallee hcode hanswer)) hlands hsp hwork

/-- What the trees do first, once it has no parts, the machine does in one round. -/
theorem InFrame.exec (h : InFrame τ s f rest E vs outer) (hcompiled : RegCompiled reg)
    (henv : o.Allows env) (hready : Ready τ ts f.pc)
    (hops : ∀ i q, InstrAt τ.code f.pc i q → i.operands ≤ vs.length)
    (hexec : ∀ i q, InstrAt τ.code f.pc i q → vmExec reg env (s.advance f rest q) f i = .ok s') :
    Matched o reg (⟨ts, E, vs, τ.syms.length⟩ :: outer) s' := by
  rcases hready with ⟨hwork, hparts⟩ | ⟨t, q, hi, hwork⟩
  swap
  · exact h.exec_jmp hwork (hexec _ _ hi)
  cases hwork with
  | halt hi => cases hexec _ _ hi
  | jmp hi hwork => exact h.exec_jmp hwork (hexec _ _ hi)
  | ret hi =>
    match vs, h, hops _ _ hi with
    | v :: vs, h, _ => exact h.exec_ret (hexec _ _ hi)
  | jmpf hi hyes hno =>
    match vs, h, hops _ _ hi with
    | v :: vs, h, _ =>
      obtain rfl := Except.ok.inj (h.jmpf_eq.symm.trans (hexec _ _ hi))
      exact h.branch (.taken hyes hno v)
  | jmpt hi hyes hno =>
    match vs, h, hops _ _ hi with
    | v :: vs, h, _ =>
      obtain rfl := Except.ok.inj (h.jmpt_eq.symm.trans (hexec _ _ hi))
      exact h.branch (.taken hyes hno v)
  | @next a more p q ha hmore =>
    by_cases hcall : ∃ x count, a = .call x count
    · obtain ⟨x, count, rfl⟩ := hcall
      obtain ⟨si, hsi, hi⟩ := ha
      have hcount : count ≤ vs.length := hops _ _ hi
      -- the topmost values are the arguments, the last one on top
      obtain ⟨args, vs', rfl, rfl⟩ : ∃ args vs' : List U64,
          vs = args.reverse ++ vs' ∧ count = args.length := by
        refine ⟨(vs.take count).reverse, vs.drop count, ?_, ?_⟩
        · rw [List.reverse_reverse, List.take_append_drop]
        · rw [List.length_reverse, List.length_take, Nat.min_eq_left hcount]
      exact h.exec_call hcompiled henv hsi hmore hi (hexec _ _ hi)
    · obtain ⟨E', vs', hacts, hlands, hsp⟩ := ha.exec_acts hparts
        (fun x count hx ↦ hcall ⟨x, count, hx⟩) h.runs henv (h.lands q).cells h.full
        (fun i hi ↦ hops i q hi) fun i hi ↦ hexec i q hi
      exact .of_lands h (.act hacts) hlands hsp hmore

/-- The values are enough for the next instruction. -/
theorem InFrame.operands_le (h : InFrame τ s f rest E vs outer) (hok : LiveOk (reg, s))
    (hi : InstrAt τ.code f.pc i q) : i.operands ≤ vs.length := by
  have hall := hok.2.2
  simp only [h.frames] at hall
  obtain ⟨-, -, hle⟩ := hall.1.now
  rw [h.runs.code, hi.decode, h.runs.nlocals] at hle
  have htop := h.cells.top_eq
  simp only at hle
  omega

/-- Replacing the first thing by its parts. -/
theorem Expands.reach {ts ts' : List Todo} (o : Outside) (reg : Registry) (h : Expands ts ts')
    {n : ℕ} (hroom : HasRoomFor (⟨ts, E, vs, n⟩ :: outer)) :
    TreeReach o (reg, ⟨ts, E, vs, n⟩ :: outer) (reg, ⟨ts', E, vs, n⟩ :: outer) := by
  induction h with
  | refl => exact .refl
  | parts hparts _ ih => exact (ih hroom).head ⟨.parts hparts, hroom⟩

/-- Every round of the machine is followed by the trees. -/
theorem TreeSim.round (h : TreeSim (reg, gs) (reg, s)) (henv : o.Allows env)
    (hstep : vmStep reg env s = .ok s') :
    ∃ y', TreeReach o (reg, gs) y' ∧ TreeSim y' (reg, s') := by
  obtain ⟨f, rest, ts, E, vs, outer, τ, rfl, hin, hwork⟩ := h.inFrame
  obtain ⟨ts', hexpands, hready⟩ := hwork.prepares
  obtain ⟨gs', htree, hframes, hsp, hdeep⟩ := hin.exec h.compiled henv hready
    (fun i q hi ↦ hin.operands_le h.ok hi)
    fun i q hi ↦ exec_of_vmStep hin.frames hstep (hin.runs.code ▸ hi)
  obtain ⟨hsize, hlen⟩ := hframes.size
  have hroom : HasRoomFor gs' := ⟨hsize.trans_le hsp, hlen.trans_le hdeep⟩
  refine ⟨(reg, gs'), (hexpands.reach o reg h.room).trans ?_, rfl, h.ok.step (.round env hstep),
    h.compiled, hframes, hroom⟩
  cases htree with
  | refl => exact .refl
  | single hstep => exact .single ⟨hstep, hroom⟩

/-- A line compiled meanwhile leaves the frames alone. -/
theorem TreeSim.line (h : TreeSim y x) (os : NocOs) (stmts : List Stmt) :
    TreeSim ((nocCompile os y.1 stmts).1, y.2) ((nocCompile os x.1 stmts).1, x.2) := by
  have hok := h.ok.step (.line os stmts)
  exact ⟨by rw [h.table], hok, h.compiled.nocCompile os stmts, h.frames, h.room⟩

/-- The machine gets behind some jumps, where it is in the same place. -/
theorem InFrame.after_jumps (o : Outside) (reg : Registry) (h : InFrame τ s f rest E vs outer)
    (hjumps : Jumps τ.code f.pc p) :
    ∃ s', RunReach o (reg, s) (reg, s') ∧ InFrame τ s' { f with pc := p } rest E vs outer := by
  rw [← h.runs.code] at hjumps
  obtain ⟨s', hreach, hframes, hstack, hsp⟩ := RunReach.of_jumps o reg h.frames hjumps
  refine ⟨s', hreach, hframes, ⟨h.runs.code, h.runs.strings, h.runs.nlocals⟩, ?_, ?_, ?_, h.deep⟩
  · rw [hstack, hsp]
    exact h.cells
  · rw [hstack]
    exact h.outer
  · rw [hsp]
    exact h.full

/-- The machine executes an instruction behind some jumps. -/
theorem InFrame.runs_exec (h : InFrame τ s f rest E vs outer) (hjumps : Jumps τ.code f.pc p)
    (hi : InstrAt τ.code p i q)
    (hexec : ∀ s₁, InFrame τ s₁ { f with pc := p } rest E vs outer → ∃ env s', o.Allows env ∧
      (∀ n, env.kbd n = false) ∧
      vmExec reg env (s₁.advance { f with pc := p } rest q) { f with pc := p } i = .ok s' ∧
      FramesSim s'.stack s'.frames gs s'.sp) :
    ∃ s', RunReach o (reg, s) (reg, s') ∧ FramesSim s'.stack s'.frames gs s'.sp := by
  obtain ⟨s₁, hreach, h₁⟩ := h.after_jumps o reg hjumps
  obtain ⟨env, s', henv, hkbd, hexec, hframes⟩ := hexec s₁ h₁
  have hi' : InstrAt { f with pc := p : Frame }.code p i q := h₁.runs.code ▸ hi
  exact ⟨s', hreach.trans (RunReach.exec h₁.frames hi' henv hkbd hexec), hframes⟩

/-- What acts on the variables and values. -/
theorem InFrame.runs_act {a : Todo} {E' : Vars} {vs' : List U64}
    (h : InFrame τ s f rest E vs outer) (hwork : WorkAt τ (a :: more) f.pc)
    (hacts : Acts o reg a E vs E' vs')
    (hroom : treeSize (⟨more, E', vs', τ.syms.length⟩ :: outer) ≤ nocStackSize) :
    ∃ s', RunReach o (reg, s) (reg, s') ∧
      FramesSim s'.stack s'.frames (⟨more, E', vs', τ.syms.length⟩ :: outer) s'.sp := by
  have hret : a ≠ .ret := by
    rintro rfl
    cases hacts
  have hbranch : ∀ yes no, a ≠ .branch yes no := by
    rintro yes no rfl
    cases hacts
  obtain ⟨p, q, hjumps, ha, hmore⟩ := hwork.find_act hret hbranch
  have hsize : f.vbase + τ.syms.length + vs'.length ≤ nocStackSize := by
    have houter := h.outer.size.1
    rw [treeSize] at houter
    rw [treeSize, List.map_cons, List.sum_cons, houter] at hroom
    simp only at hroom
    omega
  obtain ⟨s₁, hreach, h₁⟩ := h.after_jumps o reg hjumps
  obtain ⟨env, i, s', henv, hkbd, hi, hexec, hlands⟩ :=
    hacts.exec ha h₁.runs (h₁.lands q).cells hsize
  have hi' : InstrAt { f with pc := p : Frame }.code p i q := h₁.runs.code ▸ hi
  exact ⟨s', hreach.trans (RunReach.exec h₁.frames hi' henv hkbd hexec),
    hlands.framesSim h₁.runs h₁.outer hmore⟩

/-- A branch. -/
theorem InFrame.runs_branch {yes no : List Todo} (h : InFrame τ s f rest E (v :: vs) outer)
    (hwork : WorkAt τ (.branch yes no :: more) f.pc) :
    ∃ s', RunReach o (reg, s) (reg, s') ∧ FramesSim s'.stack s'.frames
      (⟨(if v = 0 then no else yes) ++ more, E, vs, τ.syms.length⟩ :: outer) s'.sp := by
  obtain ⟨p, t, q, hjumps, hjump⟩ := hwork.find_branch
  obtain ⟨env, henv, hkbd⟩ := o.exists_allowed
  rcases hjump with ⟨hi, hyes, hno⟩ | ⟨hi, hyes, hno⟩
  · refine h.runs_exec hjumps hi fun s₁ h₁ ↦ ⟨env, _, henv, hkbd, h₁.jmpf_eq, ?_⟩
    exact (h₁.lands _).pop.framesSim h₁.runs h₁.outer (.taken hyes hno v)
  · refine h.runs_exec hjumps hi fun s₁ h₁ ↦ ⟨env, _, henv, hkbd, h₁.jmpt_eq, ?_⟩
    exact (h₁.lands _).pop.framesSim h₁.runs h₁.outer (.taken hyes hno v)

/-- A return. -/
theorem InFrame.runs_ret {more' : List Todo} {E' : Vars} {vs' : List U64} {n : ℕ}
    (h : InFrame τ s f rest E (v :: vs) (⟨more', E', vs', n⟩ :: outer))
    (hwork : WorkAt τ (.ret :: more) f.pc) (hroom : f.vbase < nocStackSize) :
    ∃ s', RunReach o (reg, s) (reg, s') ∧
      FramesSim s'.stack s'.frames (⟨more', E', v :: vs', n⟩ :: outer) s'.sp := by
  obtain ⟨p, q, hjumps, hi⟩ := hwork.find_ret
  obtain ⟨env, henv, hkbd⟩ := o.exists_allowed
  refine h.runs_exec hjumps hi fun s₁ h₁ ↦ ?_
  have houter := h₁.outer
  cases rest with
  | nil => exact absurd houter id
  | cons f' rest =>
    have hmany : (s₁.advance { f with pc := p } (f' :: rest) q).frames.length ≠ 1 := by
      change rest.length + 1 + 1 ≠ 1
      omega
    refine ⟨env, _, henv, hkbd, ?_, FramesSim.returned
      (s := s₁.advance { f with pc := p } (f' :: rest) q) houter v⟩
    rw [vmExec, if_neg hmany, (h₁.lands q).cells.vmPop_eq]
    exact vmPush_eq_ok_iff.mpr ⟨hroom, rfl⟩

/-- A call of a function of the session. -/
theorem InFrame.runs_enter {x : Name} {args : List U64} {callee : NocFn} {os : NocOs}
    {known : Registry} {type : NType} {name : Name} {params : Params} {body : List Stmt} {nalloc : ℕ}
    (h : InFrame τ s f rest E (args.reverse ++ vs) outer)
    (hwork : WorkAt τ (.call x args.length :: more) f.pc)
    (hcallee : nocLookup reg x = some callee)
    (hsource : (Source.decl os known type name params body nalloc).Makes callee)
    (hargs : args.length ≤ (bodySyms params body).length)
    (hroom : HasRoomFor (bodyFrame (headers known) params body args ::
      ⟨more, E, vs, τ.syms.length⟩ :: outer)) :
    ∃ s', RunReach o (reg, s) (reg, s') ∧ FramesSim s'.stack s'.frames
      (bodyFrame (headers known) params body args :: ⟨more, E, vs, τ.syms.length⟩ :: outer)
      s'.sp := by
  obtain ⟨p, q, hjumps, ⟨si, hsi, hi⟩, hmore⟩ := hwork.find_act nofun nofun
  obtain ⟨env, henv, hkbd⟩ := o.exists_allowed
  refine h.runs_exec hjumps hi fun s₁ h₁ ↦ ?_
  have hname : ({ f with pc := p } : Frame).fn.strings[si]? = some x := by rwa [h₁.runs.strings]
  have hframes := framesSim_entered hsource h₁.cells h₁.runs h₁.outer hmore
  obtain ⟨hsize, hlen⟩ := hframes.size
  refine ⟨env, _, henv, hkbd, ?_, hframes⟩
  obtain ⟨sub, hsub, rfl⟩ := hsource
  rw [(h₁.lands q).cells.exec_enter hname hcallee rfl]
  refine vmEnter_eq_ok_iff.mpr ⟨hlen.symm.trans_le hroom.2, ?_, hsize.symm.trans_le hroom.1, rfl⟩
  rw [← (compileBody_work hsub).1] at hargs
  exact hargs

/-- Every step of the trees is followed by the machine. -/
theorem TreeSim.step (h : TreeSim y x) (hstep : TreeStep o y y') (hroom : HasRoomFor y'.2) :
    ∃ x', RunReach o x x' ∧ TreeSim y' x' := by
  obtain ⟨reg, s⟩ := x
  obtain ⟨table, gs⟩ := y
  obtain rfl : table = reg := h.table
  -- what is reached by rounds alone is in order
  have hreached : ∀ {gs'}, HasRoomFor gs' → (∃ s', RunReach o (table, s) (table, s') ∧
      FramesSim s'.stack s'.frames gs' s'.sp) →
      ∃ x', RunReach o (table, s) x' ∧ TreeSim (table, gs') x' := by
    rintro gs' hroom ⟨s', hreach, hframes⟩
    exact ⟨_, hreach, rfl, h.ok.reach hreach.live, h.compiled, hframes, hroom⟩
  obtain ⟨f, rest, ts, E, vs, outer, τ, rfl, hin, hwork⟩ := h.inFrame
  cases hstep with
  | parts hparts =>
    refine hreached hroom ⟨s, .refl, ?_⟩
    rw [hin.frames]
    exact ⟨⟨τ, hin.runs, rfl, hin.cells, hwork.parts hparts⟩, hin.outer⟩
  | act hacts => exact hreached hroom (hin.runs_act hwork hacts hroom.1)
  | branch => exact hreached hroom (hin.runs_branch hwork)
  | enter hcallee hsource hargs =>
    exact hreached hroom (hin.runs_enter hwork hcallee hsource hargs hroom)
  | ret =>
    refine hreached hroom (hin.runs_ret hwork ?_)
    have htop := hin.cells.top_eq
    have hfull := hin.full
    rw [List.length_cons] at htop
    omega
  | line os hline => exact ⟨_, .single (.line os hline), h.line os _⟩

end NoOsKernel.Noc
