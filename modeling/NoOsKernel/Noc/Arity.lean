import NoOsKernel.Noc.Isolation
import NoOsKernel.Noc.Sites

/-!
# Arguments and parameters

A call passes what `compile_call` has put together for the function it found; the function that
`OP_CALL` finds may be another by then. `Delivered` says that the frame of the function called starts
with the values of the written arguments and behind them with its own defaults. This is so whenever
`compile_call` would put the same together for the function found now, and no argument behind the
first leaves an operand too many (`arguments_delivered`).

The value of an argument is what the machine has on top of the stack when the code of the argument
has ended; it lies there until the call takes it. A history of the run says so (`EvaluatedAt`).
-/

set_option autoImplicit false
set_option relaxedAutoImplicit false

namespace NoOsKernel.Noc

open Lib

/-! ### Sources -/

/-- The loop of `noc_compile` over a line comes to the statement `s` with the table `now` and the
compiler `at_`. -/
inductive LineReaches (os : NocOs) : Registry → CComp → List Stmt → Registry → CComp → Stmt → Prop
  | here {reg : Registry} {c : CComp} {s : Stmt} {ss : List Stmt} :
    LineReaches os reg c (s :: ss) reg c s
  | func {reg reg₁ now : Registry} {c at_ : CComp} {type : NType} {name : Name} {params : Params}
      {body ss : List Stmt} {nalloc : ℕ} {s : Stmt} :
    compileFuncdecl os reg c.nalloc type name params body = .ok (reg₁, nalloc) →
    LineReaches os reg₁ { c with nalloc := nalloc } ss now at_ s →
    LineReaches os reg c (.func type name params body :: ss) now at_ s
  | stmt {reg now : Registry} {c c₁ at_ : CComp} {t s : Stmt} {ss : List Stmt} :
    compileStmt os reg c ss.isEmpty t = .ok c₁ → LineReaches os reg c₁ ss now at_ s →
    LineReaches os reg c (t :: ss) now at_ s

/-- What a function was compiled from: a declaration, or the statements of a line, and the table and
the allocations it met. -/
inductive Source where
  | decl (os : NocOs) (reg : Registry) (type : NType) (name : Name) (params : Params)
    (body : List Stmt) (nalloc : ℕ)
  | line (os : NocOs) (reg : Registry) (stmts : List Stmt)

/-- The function is what the source compiles to. -/
def Source.Makes : Source → NocFn → Prop
  | .decl os reg type name params body nalloc, f => ∃ sub,
    compileBody os reg params.val body nalloc = .ok sub ∧ f = userFn type name params.val sub
  | .line os reg stmts, f => (nocCompile os reg stmts).2 = .ok f

/-- The site is a call written in the source, and in the code of the function its `OP_CALL` is at
`pos`. -/
def Source.Writes : Source → NocFn → ℕ → CallSite → Prop
  | .decl _ reg _ _ params body _, f, pos, site => ∃ τ : Image, f.code = some τ.code ∧
    BlockSite reg τ pos site (params.val.map fun p ↦ (p.name, p.type)) body 0
  | .line os reg stmts, f, pos, site => ∃ (τ : Image) (now : Registry) (at_ : CComp) (s : Stmt),
    f.code = some τ.code ∧ LineReaches os reg (CComp.start [] false 0) stmts now at_ s ∧
      StmtSite now τ pos site at_.syms s (codePc at_)

/-- The function has a source, and whatever its source, every call in its code is written there and
finds its operands. -/
def NocFn.Sited (f : NocFn) : Prop :=
  (∃ src : Source, src.Makes f) ∧ ∃ code, f.code = some code ∧ ∀ src : Source, src.Makes f →
    Lib.Safe (SiteOk (src.Writes f) f.strings code) (OpsNext code) (0, [])

/-- A function that `compile_funcdecl` has made. -/
def NocFn.Compiled (f : NocFn) : Prop :=
  ∃ (os : NocOs) (reg : Registry) (type : NType) (name : Name) (params : Params)
    (body : List Stmt) (nalloc : ℕ), (Source.decl os reg type name params body nalloc).Makes f

/-- All functions of the table that have code are compiled ones. -/
def RegCompiled (reg : Registry) : Prop := ∀ f ∈ reg, f.builtin = none → f.Compiled

variable {os : NocOs} {reg reg' : Registry} {c c' : CComp}

/-- The calls of a compiled body are in order. -/
theorem compileBody_sites {type : NType} {name : Name} {params : Params} {body : List Stmt}
    {nalloc : ℕ} {sub : CComp} (h : compileBody os reg params.val body nalloc = .ok sub) :
    Lib.Safe (SiteOk ((Source.decl os reg type name params body nalloc).Writes
      (userFn type name params.val sub)) sub.strings sub.code) (OpsNext sub.code) (0, []) := by
  obtain ⟨c₁, h₁, h⟩ := exists_of_bind_eq_ok h
  obtain ⟨c₂, h₂, h₃⟩ := exists_of_bind_eq_ok h
  have hlays := (compileBlock_lays body h₁).andThen
    ((emit_instr_lays (.push 0) trivial h₂).andThen (emit_instr_lays .ret trivial h₃))
  have hparams : (params.val.map fun p ↦ (p.name, p.type)).length ≤ nocMaxLocals := by
    have hle : params.val.length ≤ 16 := params.property
    rw [List.length_map, nocMaxLocals]
    omega
  obtain ⟨hblock, hpush, hret⟩ := hlays.at_image (bounded_start hparams)
  intro n
  refine hblock.sitesFor (fun pos site hsite ↦ ⟨sub.image, rfl, hsite⟩) (fun l ↦ ?_) []
  refine hpush.sitesFor_one rfl rfl (by rintro _ _ ⟨⟩) fun _ _ ↦ ?_
  exact SafeFor.of_succ (hret.sitesFor_succ (by rintro _ _ ⟨⟩) fun _ ht ↦ absurd ht List.not_mem_nil)

theorem RegCompiled.register {f : NocFn} (hreg : RegCompiled reg)
    (hf : f.builtin = none → f.Compiled) (h : nocRegisterUserFn reg f = some reg') :
    RegCompiled reg' := by
  intro g hg hcode
  rcases mem_of_register h hg with rfl | hold
  · exact hf hcode
  · exact hreg g hold hcode

theorem regCompiled_nocInitFrom {i : ℕ} {bs : List NocBuiltin} (hreg : RegCompiled reg) :
    RegCompiled (nocInitFrom os reg i bs) := by
  induction bs generalizing reg i with
  | nil => exact hreg
  | cons b bs ih =>
    apply ih
    unfold nocRegisterBuiltin
    split_ifs with halloc
    · cases hregister : nocRegisterUserFn reg (builtinFn b i) with
      | none => exact hreg
      | some reg' => exact hreg.register (fun hcode ↦ absurd hcode (by rintro ⟨⟩)) hregister
    · exact hreg

theorem RegCompiled.compileFuncdecl {type : NType} {name : Name} {params : Params}
    {body : List Stmt} {nalloc nalloc' : ℕ} (hreg : RegCompiled reg)
    (h : compileFuncdecl os reg nalloc type name params body = .ok (reg', nalloc')) :
    RegCompiled reg' := by
  unfold Noc.compileFuncdecl at h
  split_ifs at h
  obtain ⟨sub, hsub, h⟩ := exists_of_bind_eq_ok h
  split at h
  · rename_i reg₁ hregister
    obtain ⟨rfl, rfl⟩ := Prod.mk.inj (Except.ok.inj h)
    exact hreg.register (fun _ ↦ ⟨os, reg, type, name, params, body, _, sub, hsub, rfl⟩) hregister
  · cases h

theorem RegCompiled.compileLine {ss : List Stmt} {r : Compiled} (hreg : RegCompiled reg)
    (h : compileLine os reg c ss = (reg', r)) : RegCompiled reg' := by
  induction ss generalizing reg c with
  | nil =>
    obtain ⟨rfl, -⟩ := Prod.mk.inj h
    exact hreg
  | cons s ss ih =>
    rcases compileLine_cons h with ⟨_, _, _, _, _, _, -, hfn, hrest⟩ | ⟨_, -, hrest⟩ | ⟨e, he⟩
    · exact ih (hreg.compileFuncdecl hfn) hrest
    · exact ih hreg hrest
    · obtain ⟨rfl, -⟩ := Prod.mk.inj he
      exact hreg

theorem RegCompiled.nocCompile (hreg : RegCompiled reg) (os : NocOs) (stmts : List Stmt) :
    RegCompiled (nocCompile os reg stmts).1 := by
  unfold Noc.nocCompile
  split
  · rename_i reg₁ c₁ hline
    split
    · exact hreg.compileLine hline
    · exact hreg.compileLine hline
  · rename_i reg₁ e hline
    exact hreg.compileLine hline

theorem Session.regCompiled (h : Session reg) : RegCompiled reg := by
  obtain ⟨os, user, hrun⟩ := h
  refine hrun.invariant RegCompiled ?_ fun _ line hreg _ ↦ hreg.nocCompile line.os line.stmts
  exact regCompiled_nocInitFrom nofun

/-- The calls of a line are in order if what follows it is. -/
theorem compileLine_sites {ss : List Stmt} (h : compileLine os reg c ss = (reg', .ok c')) :
    ∃ ds, Lays c c' ds fun τ ↦ ∀ W n,
      (∀ now at_ s, LineReaches os reg c ss now at_ s →
        ∀ pos site, StmtSite now τ pos site at_.syms s (codePc at_) → W pos site) →
      (∀ l, SitesFor W τ n (codePc c') l) → ∀ l, SitesFor W τ n (codePc c) l := by
  induction ss generalizing reg c with
  | nil =>
    obtain ⟨rfl, hc⟩ := Prod.mk.inj h
    obtain rfl := Except.ok.inj hc
    exact ⟨[], (Lays.refl c).mono fun _ _ _ _ _ hok ↦ hok⟩
  | cons s ss ih =>
    rcases compileLine_cons h with ⟨_, _, _, _, _, nalloc, rfl, hfn, hrest⟩ | ⟨c₁, hs, hrest⟩ |
      ⟨e, he⟩
    · obtain ⟨ds, hlays⟩ := ih hrest
      have hcount : Lays c { c with nalloc := nalloc } [] fun _ ↦ True :=
        ⟨{ Extends.refl c with
            bounded := fun hb ↦ ⟨⟨hb.code, hb.syms, hb.strings⟩, hb.len_le, hb.cap_le⟩ },
          fun _ _ ↦ trivial⟩
      refine ⟨_, (hcount.andThen hlays).mono fun τ hτ W n hW ↦ ?_⟩
      exact hτ.2 W n fun now at_ t ht ↦ hW now at_ t (.func hfn ht)
    · obtain ⟨ds, hlays⟩ := ih hrest
      refine ⟨_, ((compileStmt_last_lays hs).andThen hlays).mono ?_⟩
      rintro τ ⟨hstmt, hss⟩ W n hW hq l
      have hnext := hss W n (fun now at_ t ht ↦ hW now at_ t (.stmt hs ht)) hq
      have hhere := hW reg c s .here
      rcases hstmt with hstmt | ⟨e, rfl, he⟩
      · exact hstmt.sitesFor hhere hnext l
      · exact he.sitesFor hhere fun _ _ _ ↦ hnext _
    · cases (Prod.mk.inj he).2

/-- The calls of the chunk of a line are in order. -/
theorem nocCompile_sites {stmts : List Stmt} {chunk : NocFn}
    (h : nocCompile os reg stmts = (reg', .ok chunk)) : ∃ code, chunk.code = some code ∧
      Lib.Safe (SiteOk ((Source.line os reg stmts).Writes chunk) chunk.strings code) (OpsNext code)
        (0, []) := by
  unfold nocCompile at h
  split at h
  · rename_i reg₁ c₁ hline
    split at h
    · rename_i c₂ hhalt
      obtain ⟨rfl, hchunk⟩ := Prod.mk.inj h
      obtain rfl := Except.ok.inj hchunk
      obtain ⟨ds, hlays⟩ := compileLine_sites hline
      have hall := hlays.andThen (emit_instr_lays .halt trivial hhalt)
      obtain ⟨hok, hi⟩ := hall.at_image (bounded_start (Nat.zero_le _))
      refine ⟨c₂.code, rfl, fun n ↦ hok _ n (fun now at_ s hreach pos site hsite ↦ ?_) ?_ []⟩
      · exact ⟨c₂.image, now, at_, s, rfl, hreach, hsite⟩
      · exact fun l ↦ SafeFor.of_succ (hi.sitesFor_succ nofun nofun)
    · cases (Prod.mk.inj h).2
  · cases (Prod.mk.inj h).2

/-- What a source makes is in order. -/
theorem Source.Makes.sited {src : Source} {f : NocFn} (h : src.Makes f) : f.Sited := by
  have hsites : ∀ src : Source, src.Makes f → ∃ code, f.code = some code ∧
      Lib.Safe (SiteOk (src.Writes f) f.strings code) (OpsNext code) (0, []) := by
    intro src hmakes
    cases src with
    | decl os reg type name params body nalloc =>
      obtain ⟨sub, hbody, rfl⟩ := hmakes
      exact ⟨sub.code, rfl, compileBody_sites hbody⟩
    | line os reg stmts => exact nocCompile_sites (Prod.ext rfl hmakes)
  obtain ⟨code, hcode, -⟩ := hsites src h
  refine ⟨⟨src, h⟩, code, hcode, fun src' hsrc' ↦ ?_⟩
  obtain ⟨code', hcode', hsafe⟩ := hsites src' hsrc'
  obtain rfl := Option.some.inj (hcode.symm.trans hcode')
  exact hsafe

theorem NocFn.Compiled.sited {f : NocFn} (h : f.Compiled) : f.Sited := by
  obtain ⟨os, reg, type, name, params, body, nalloc, hmakes⟩ := h
  exact hmakes.sited

/-! ### Operands of the machine -/

/-- The frame `f` is at `pos` of its code over the frames `rest`, with one operand in `cell`, the
topmost, of value `v`. -/
def AtEnd (f : Frame) (rest : List Frame) (cell pos : ℕ) (v : U64) (x : Registry × VmState) :
    Prop :=
  x.2.frames = { f with pc := pos } :: rest ∧ x.2.sp = cell + 1 ∧ x.2.stack cell = v

/-- There are more than `depth` frames, and the operand in `cell` is on the stack. -/
def OnStack (depth cell : ℕ) (x : Registry × VmState) : Prop :=
  depth < x.2.frames.length ∧ cell < x.2.sp

/-- The code of the frame had come to `pos` with `v` on top in `cell`, and since then this operand
has been on the stack. -/
def EvaluatedAt (history : List (Registry × VmState)) (f : Frame) (rest : List Frame)
    (cell pos : ℕ) (v : U64) : Prop :=
  Since (AtEnd f rest cell pos v) (OnStack rest.length cell) history

/-- The operands of the frame below `top` are `ops`, as far as they are followed. -/
def Held (history : List (Registry × VmState)) (stack : ℕ → U64) (f : Frame) (rest : List Frame)
    (top : ℕ) (ops : List Operand) : Prop :=
  ∀ j c, ops[j]? = some c → f.vbase + f.nlocals + j < top ∧ stack (top - 1 - j) = c.value ∧
    ∀ pos, c.pos = some pos → EvaluatedAt history f rest (top - 1 - j) pos c.value

/-- The calls of the frame from its program counter on are in order with these operands. -/
def FrameSited (f : Frame) (ops : List Operand) : Prop :=
  (∃ src : Source, src.Makes f.fn) ∧ f.fn.code = some f.code ∧ ∀ src : Source, src.Makes f.fn →
    Lib.Safe (SiteOk (src.Writes f.fn) f.fn.strings f.code) (OpsNext f.code) (f.pc, ops)

theorem FrameSited.goto {f : Frame} {ops ops' : List Operand} {t : ℕ} (h : FrameSited f ops)
    (hnext : OpsNext f.code (f.pc, ops) (t, ops')) : FrameSited { f with pc := t } ops' :=
  ⟨h.1, h.2.1, fun src hsrc ↦ (h.2.2 src hsrc).after hnext⟩

/-- The frames that wait for a call whose frame has the base `vbase`: each will find one operand more
at that base. -/
def Waiting (history : List (Registry × VmState)) (stack : ℕ → U64) : List Frame → ℕ → Prop
  | [], _ => True
  | f :: rest, vbase => (∃ ops, (∀ v, FrameSited f (⟨some f.pc, v⟩ :: ops)) ∧
      Held history stack f rest vbase ops) ∧ f.vbase + f.nlocals ≤ vbase ∧
    Waiting history stack rest f.vbase

/-- The operands of all frames are followed. -/
def Followed : List (Registry × VmState) → Prop
  | [] => False
  | x :: past => ∃ f rest ops, x.2.frames = f :: rest ∧ FrameSited f ops ∧
    Held (x :: past) x.2.stack f rest x.2.sp ops ∧ Waiting (x :: past) x.2.stack rest f.vbase

variable {history : List (Registry × VmState)} {stack stack' : ℕ → U64} {f : Frame}
  {rest : List Frame} {top vbase : ℕ} {ops : List Operand} {x y : Registry × VmState}

/-- Operands that the machine leaves alone. -/
theorem Held.step (h : Held history stack f rest top ops)
    (hstack : ∀ k, f.vbase + f.nlocals ≤ k → k < top → stack' k = stack k) (htop : top ≤ y.2.sp)
    (hdepth : rest.length < y.2.frames.length) : Held (y :: history) stack' f rest top ops := by
  intro j c hj
  obtain ⟨hlt, hval, hpos⟩ := h j c hj
  refine ⟨hlt, ?_, fun pos hp ↦ .later ⟨hdepth, by omega⟩ (hpos pos hp)⟩
  rw [hstack _ (by omega) (by omega), hval]

theorem Waiting.step {frames : List Frame} (h : Waiting history stack frames vbase)
    (hstack : ∀ k < vbase, stack' k = stack k) (htop : vbase ≤ y.2.sp)
    (hdepth : frames.length ≤ y.2.frames.length) : Waiting (y :: history) stack' frames vbase := by
  induction frames generalizing vbase with
  | nil => exact trivial
  | cons f rest ih =>
    obtain ⟨⟨ops, hsited, hheld⟩, hbase, hrest⟩ := h
    rw [List.length_cons] at hdepth
    refine ⟨⟨ops, hsited, hheld.step (fun k _ hk ↦ hstack k hk) htop hdepth⟩, hbase, ?_⟩
    exact ih hrest (fun k hk ↦ hstack k (by omega)) (by omega) (by omega)

/-- The topmost operand of a frame has been evaluated just now. -/
theorem Held.onTop {l : List Operand} {t : ℕ} (hframes : y.2.frames = { f with pc := t } :: rest)
    (hl : ∀ j c, l[j]? = some c → f.vbase + f.nlocals + j < y.2.sp ∧
      y.2.stack (y.2.sp - 1 - j) = c.value ∧ (0 < j → ∀ pos, c.pos = some pos →
        EvaluatedAt (y :: history) f rest (y.2.sp - 1 - j) pos c.value)) :
    Held (y :: history) y.2.stack f rest y.2.sp (onTop t l) := by
  intro j c hj
  cases l with
  | nil => cases hj
  | cons c₀ l =>
    cases j with
    | zero =>
      obtain ⟨hlt, hval, -⟩ := hl 0 c₀ rfl
      obtain rfl := Option.some.inj hj
      refine ⟨hlt, hval, fun pos hp ↦ .now ⟨?_, by omega, hval⟩⟩
      rw [hframes, Option.some.inj hp]
    | succ j =>
      obtain ⟨hlt, hval, hpos⟩ := hl (j + 1) c hj
      exact ⟨hlt, hval, hpos (Nat.succ_pos j)⟩

/-- The new operands of an instruction, as the machine has them. -/
def newOperands (s : VmState) (n : ℕ) : List Operand :=
  (List.range n).map fun j ↦ ⟨none, s.stack (s.sp - 1 - j)⟩

theorem length_newOperands (s : VmState) (n : ℕ) : (newOperands s n).length = n := by
  rw [newOperands, List.length_map, List.length_range]

/-- An instruction that stays in the frame. -/
theorem Held.move {s : VmState} {i : Instr} {t : ℕ} (h : Held history s.stack f rest s.sp ops)
    (hops : f.vbase + f.nlocals + i.operands ≤ s.sp)
    (hframes : y.2.frames = { f with pc := t } :: rest)
    (hsp : y.2.sp + i.operands = s.sp + i.results)
    (hstack : ∀ k, k + i.operands < s.sp → k < f.vbase ∨ f.vbase + f.nlocals ≤ k →
      y.2.stack k = s.stack k) :
    Held (y :: history) y.2.stack f rest y.2.sp
      (Noc.onTop t (newOperands y.2 i.results ++ ops.drop i.operands)) := by
  refine Held.onTop hframes fun j c hj ↦ ?_
  by_cases hnew : j < i.results
  · rw [List.getElem?_append_left (by rwa [length_newOperands]), newOperands, List.getElem?_map,
      List.getElem?_range hnew] at hj
    obtain rfl := Option.some.inj hj
    exact ⟨by omega, rfl, nofun⟩
  · -- an operand from below: its cell is where it was
    rw [List.getElem?_append_right (by rw [length_newOperands]; omega), length_newOperands,
      List.getElem?_drop] at hj
    obtain ⟨hlt, hval, hpos⟩ := h _ c hj
    have hcell : s.sp - 1 - (i.operands + (j - i.results)) = y.2.sp - 1 - j := by omega
    rw [hcell] at hval hpos
    refine ⟨by omega, ?_, fun _ pos hp ↦ .later ⟨?_, by omega⟩ (hpos pos hp)⟩
    · rw [hstack _ (by omega) (Or.inr (by omega)), hval]
    · rw [hframes, List.length_cons]
      exact Nat.lt_succ_self _

/-- The operands below those that a call takes. -/
theorem Held.drop (h : Held history stack f rest top ops) (n : ℕ) :
    Held history stack f rest (top - n) (ops.drop n) := by
  intro j c hj
  rw [List.getElem?_drop] at hj
  obtain ⟨hlt, hval, hpos⟩ := h _ c hj
  have hcell : top - 1 - (n + j) = top - n - 1 - j := by omega
  rw [hcell] at hval hpos
  exact ⟨by omega, hval, hpos⟩

/-- A step follows the operands of all frames. -/
theorem Followed.step {past : List (Registry × VmState)} (h : Followed (x :: past)) (hok : LiveOk x)
    (hreg : RegCompiled x.1) (hstep : LiveStep x y) : Followed (y :: x :: past) := by
  obtain ⟨f, rest, ops, hframes, hsited, hheld, hwait⟩ := h
  have hall := hok.2.2
  rw [hframes] at hall
  obtain ⟨-, -, hops⟩ := hall.1.now
  cases hstep with
  | line os stmts =>
    have hdepth := congrArg List.length hframes
    rw [List.length_cons] at hdepth
    exact ⟨f, rest, ops, hframes, hsited,
      hheld.step (fun _ _ _ ↦ rfl) le_rfl (by simp only at hdepth ⊢; omega),
      hwait.step (fun _ _ ↦ rfl) (by simp only at hops ⊢; omega) (by simp only at hdepth ⊢; omega)⟩
  | @round reg s s' env hround =>
    obtain ⟨f', rest', hframes', -, heffect⟩ := vmStep_effect hround
    obtain ⟨rfl, rfl⟩ := List.cons.inj (hframes.symm.trans hframes')
    simp only at hframes hheld hwait hops
    cases heffect with
    | move t ht hmoved hsp hstack =>
      refine ⟨{ f with pc := t }, rest, _, hmoved, hsited.goto ⟨ht, ?_⟩,
        hheld.move (y := (reg, s')) hops hmoved hsp hstack,
        hwait.step (fun k hk ↦ hstack k (by omega) (Or.inl hk)) ?_ ?_⟩
      · refine ⟨newOperands s' _, length_newOperands _ _, fun v hv c hc ↦ ?_, rfl⟩
        rw [hv] at hc
        obtain rfl := List.mem_singleton.mp hc
        exact vmStep_push hround hframes hv
      · simp only
        omega
      · simp only [hmoved, List.length_cons]
        omega
    | enter si count name callee hi hname hcallee hcode hcount hlocals _ _ hentered hsp hstack =>
      obtain ⟨hsrc, code, hsome, hsafe⟩ := (hreg callee (mem_of_nocLookup hcallee) hcode).sited
      have hnew : FrameSited (calleeFrame callee (s.sp - count)) [] := by
        refine ⟨hsrc, ?_, ?_⟩
        · simp only [calleeFrame, hsome, Option.getD_some]
        · simp only [calleeFrame, hsome, Option.getD_some]
          exact hsafe
      have hback : ∀ v, FrameSited { f with pc := (decode f.code f.pc).2 }
          (⟨some (decode f.code f.pc).2, v⟩ :: ops.drop count) := by
        intro v
        refine hsited.goto ⟨?_, [⟨none, v⟩], ?_, ?_, ?_⟩
        · simp only [hi]
          exact List.mem_singleton_self _
        · simp only [hi]
          rfl
        · simp only [hi]
          rintro _ ⟨⟩
        · simp only [hi]
          rfl
      rw [hi] at hops
      change f.vbase + f.nlocals + count ≤ s.sp at hops
      have hbelow : ∀ k < s.sp - count, s'.stack k = s.stack k := by
        intro k hk
        rw [hstack, calleeStack, if_neg (by omega)]
      have hdepth : rest.length + 2 = s'.frames.length := by
        rw [hentered, List.length_cons, List.length_cons]
      refine ⟨_, _, [], hentered, hnew, by rintro _ _ ⟨⟩, ⟨⟨ops.drop count, hback, ?_⟩, ?_, ?_⟩⟩
      · exact (hheld.drop count).step (fun k _ hk ↦ hbelow k hk) (by simp only; omega)
          (by simp only; omega)
      · simp only [calleeFrame]
        omega
      · exact hwait.step (fun k hk ↦ hbelow k (by omega)) (by simp only; omega) (by simp only; omega)
    | leave hi hne hleft hsp hstack =>
      cases rest with
      | nil => exact absurd rfl hne
      | cons g rest =>
        obtain ⟨⟨ops', hback, hheld'⟩, hbase, hwait'⟩ := hwait
        have hbelow : ∀ k < f.vbase, s'.stack k = s.stack k := by
          intro k hk
          rw [hstack, Function.update_of_ne (by omega)]
        refine ⟨g, rest, _, hleft, hback (s.stack (s.sp - 1)), ?_, ?_⟩
        · refine Held.onTop (y := (reg, s')) (l := ⟨none, s.stack (s.sp - 1)⟩ :: ops') hleft ?_
          rintro (_ | j) c hj
          · obtain rfl := Option.some.inj hj
            refine ⟨by simp only; omega, ?_, fun _ _ hp ↦ by cases hp⟩
            simp only [hsp, hstack, Nat.add_sub_cancel, Nat.sub_zero, Function.update_self]
          · obtain ⟨hlt, hval, hpos⟩ := hheld' j c hj
            have hcell : s'.sp - 1 - (j + 1) = f.vbase - 1 - j := by omega
            simp only [hcell]
            refine ⟨by omega, by rw [hbelow _ (by omega), hval], fun _ pos hp ↦ ?_⟩
            refine .later ⟨?_, by simp only; omega⟩ (hpos pos hp)
            rw [hleft, List.length_cons]
            exact Nat.lt_succ_self _
        · refine hwait'.step (fun k hk ↦ hbelow k (by omega)) (by simp only; omega) ?_
          simp only [hleft, List.length_cons]
          omega

/-! ### Delivery -/

/-- The frame of the function called starts with the values of the written arguments and, for the
parameters they leave out, with its declared defaults; there are no more and no fewer. -/
structure Delivered (history : List (Registry × VmState)) (f : Frame) (rest : List Frame)
    (site : CallSite) (callee : NocFn) (vbase count : ℕ) (stack : ℕ → U64) : Prop where
  count_eq : count = callee.nargs
  args_le : site.args.length ≤ callee.nargs
  argument : ∀ i pos, site.ends[i]? = some pos →
    EvaluatedAt history f rest (vbase + i) pos (stack (vbase + i))
  default : ∀ i, site.args.length ≤ i → i < callee.nargs →
    callee.defaults[i]? = some (some (stack (vbase + i)))

/-- For this function `compile_call` would put together what it has put together. -/
def CallSite.Fits (site : CallSite) (callee : NocFn) : Prop :=
  callDefaults callee site.name site.args.length =
    callDefaults site.found site.name site.args.length

/-- What passes the checks of `compile_call` for a function with a fixed number of parameters. -/
theorem callDefaults_eq_ok {callee : NocFn} {name : Name} {nargs : ℕ} {defaults : List U64}
    (hfixed : callee.variadic = false) (h : callDefaults callee name nargs = .ok defaults) :
    nargs ≤ callee.nargs ∧ callee.defaults.drop nargs = defaults.map some := by
  unfold callDefaults at h
  rw [hfixed] at h
  simp only [Bool.false_eq_true, if_false] at h
  split_ifs at h with hmany hnone
  obtain rfl := Except.ok.inj h
  have hsome : ∀ d ∈ callee.defaults.drop nargs, (some ∘ fun d ↦ d.getD 0) d = id d := by
    intro d hd
    cases d with
    | some v => rfl
    | none => exact absurd (List.any_eq_true.mpr ⟨none, hd, rfl⟩) hnone
  refine ⟨Nat.le_of_not_lt hmany, ?_⟩
  rw [List.map_map, List.map_congr_left hsome, List.map_id]

theorem NocFn.Compiled.shape {callee : NocFn} (h : callee.Compiled) :
    callee.variadic = false ∧ callee.defaults.length = callee.nargs := by
  obtain ⟨os, reg, type, name, params, body, nalloc, sub, -, rfl⟩ := h
  exact ⟨rfl, List.length_map _⟩

/-- A call whose operands are followed delivers them. -/
theorem CallSite.Ready.delivered {site : CallSite} {callee : NocFn} {count : ℕ}
    (hready : site.Ready count ops) (htidy : site.Tidy) (hfits : site.Fits callee)
    (hcallee : callee.Compiled) (hheld : Held history stack f rest top ops) (hcount : count ≤ top) :
    Delivered history f rest site callee (top - count) count
      (calleeStack stack callee (top - count) count) := by
  obtain ⟨hfixed, hlen⟩ := hcallee.shape
  obtain ⟨hargs, hdefaults⟩ := callDefaults_eq_ok hfixed (hfits.trans hready.checked)
  obtain ⟨dtop, atop, more, rfl, hdtop, hatop⟩ := hready.pushed htidy
  have hdlen : dtop.length = site.defaults.length := by
    rw [← List.length_map (f := Operand.value), hdtop, List.length_reverse]
  have hnargs : site.args.length + site.defaults.length = callee.nargs := by
    have hdrop := congrArg List.length hdefaults
    rw [List.length_drop, List.length_map] at hdrop
    omega
  have hcount_eq := hready.count_eq
  have hends := hready.ends_length
  -- a parameter is the cell that was an operand before the call
  have hslot : ∀ i < count, calleeStack stack callee (top - count) count (top - count + i) =
      stack (top - count + i) := by
    intro i hi
    rw [calleeStack, if_neg (by omega)]
  refine ⟨by omega, by omega, fun i pos hpos ↦ ?_, fun i hle hlt ↦ ?_⟩
  · obtain ⟨hi, -⟩ := List.getElem?_eq_some_iff.mp hpos
    have hmapped : (atop.map Operand.pos)[site.args.length - 1 - i]? = some (some pos) := by
      rw [hatop, List.getElem?_reverse (by rw [List.length_map]; omega), List.length_map, hends,
        show site.args.length - 1 - (site.args.length - 1 - i) = i by omega, List.getElem?_map,
        hpos]
      rfl
    rw [List.getElem?_map] at hmapped
    obtain ⟨c, hc, hcpos⟩ := Option.map_eq_some_iff.mp hmapped
    obtain ⟨-, hval, heval⟩ := hheld (site.defaults.length + (site.args.length - 1 - i)) c (by
      rw [← hdlen, List.getElem?_append_right (Nat.le_add_right _ _), Nat.add_sub_cancel_left,
        List.getElem?_append_left (List.getElem?_eq_some_iff.mp hc).1, hc])
    have hcell : top - 1 - (site.defaults.length + (site.args.length - 1 - i)) =
        top - count + i := by omega
    rw [hcell] at hval heval
    rw [hslot i (by omega), hval]
    exact heval pos hcpos
  · have hdefault : callee.defaults[i]? = (site.defaults.map some)[i - site.args.length]? := by
      rw [← hdefaults, List.getElem?_drop, Nat.add_sub_cancel' hle]
    have hmapped : (dtop.map Operand.value)[site.defaults.length - 1 - (i - site.args.length)]? =
        site.defaults[i - site.args.length]? := by
      rw [hdtop, List.getElem?_reverse (by omega)]
      congr 1
      omega
    have hin : i - site.args.length < site.defaults.length := by omega
    rw [List.getElem?_map, List.getElem?_eq_getElem hin] at hmapped
    obtain ⟨c, hc, hcval⟩ := Option.map_eq_some_iff.mp hmapped
    obtain ⟨-, hval, -⟩ := hheld (site.defaults.length - 1 - (i - site.args.length)) c (by
      rw [List.getElem?_append_left (List.getElem?_eq_some_iff.mp hc).1, hc])
    have hcell : top - 1 - (site.defaults.length - 1 - (i - site.args.length)) =
        top - count + i := by omega
    rw [hcell] at hval
    rw [hdefault, List.getElem?_map, List.getElem?_eq_getElem hin, hslot i (by omega), hval, hcval]
    rfl

/-- The step executes the `OP_CALL` of the frame `f` over the frames `rest`, with `count` operands,
and enters the function `callee` in a frame with base `vbase`. -/
structure Enters (x y : Registry × VmState) (f : Frame) (rest : List Frame) (name : Name)
    (callee : NocFn) (vbase count : ℕ) : Prop where
  frames : x.2.frames = f :: rest
  call : ∃ si, (decode f.code f.pc).1 = .call si count ∧ f.fn.strings[si]? = some name
  lookup : nocLookup x.1 name = some callee
  code : callee.builtin = none
  frames' : y.2.frames = calleeFrame callee vbase :: { f with pc := (decode f.code f.pc).2 } :: rest
  base : vbase + count = x.2.sp
  stack : y.2.stack = calleeStack x.2.stack callee vbase count

theorem LiveStep.enters (h : LiveStep x y) (hmore : x.2.frames.length < y.2.frames.length) :
    ∃ f rest name callee count, Enters x y f rest name callee (x.2.sp - count) count := by
  cases h with
  | line os stmts => exact absurd hmore (Nat.lt_irrefl _)
  | round env h =>
    obtain ⟨f, rest, hframes, -, heffect⟩ := vmStep_effect h
    simp only [hframes, List.length_cons] at hmore
    cases heffect with
    | move t ht hframes' _ _ =>
      rw [hframes', List.length_cons] at hmore
      omega
    | enter si count name callee hi hname hcallee hcode hcount _ _ _ hframes' hsp hstack =>
      exact ⟨f, rest, name, callee, count, hframes, ⟨si, hi, hname⟩, hcallee, hcode, hframes',
        Nat.sub_add_cancel hcount, hstack⟩
    | leave _ _ hframes' _ _ =>
      rw [hframes'] at hmore
      omega

/-- In every history of a run of a compiled line the operands are followed. -/
theorem followed_history {stmts : List Stmt} {chunk : NocFn} {s : VmState}
    (hsession : Session reg) (hcompile : nocCompile os reg stmts = (reg', .ok chunk))
    {stack : ℕ → U64} (hstart : vmStart chunk stack = .ok s)
    (hhistory : History LiveStep (reg', s) history) :
    ∃ x past, history = x :: past ∧ LiveOk x ∧ RegCompiled x.1 ∧ Followed (x :: past) := by
  have hreg : RegSafe reg' ∧ RegCompiled reg' := by
    have hsafe := hsession.regSafe.nocCompile os stmts
    have hcompiled := hsession.regCompiled.nocCompile os stmts
    rw [hcompile] at hsafe hcompiled
    exact ⟨hsafe, hcompiled⟩
  refine hhistory.invariant (P := fun history ↦ ∃ x past, history = x :: past ∧ LiveOk x ∧
    RegCompiled x.1 ∧ Followed (x :: past)) ?_ ?_
  · obtain ⟨code, hcode, hframes, hsp, -, -⟩ := vmStart_spec hstart
    have hmakes : (Source.line os reg stmts).Makes chunk := congrArg Prod.snd hcompile
    obtain ⟨hsrc, code', hcode', hsafe⟩ := hmakes.sited
    obtain rfl := Option.some.inj (hcode.symm.trans hcode')
    refine ⟨_, _, rfl, ⟨hreg.1, vmOk_start (nocCompile_safe hcompile) hstart⟩, hreg.2, ?_⟩
    exact ⟨_, _, [], hframes, ⟨hsrc, hcode, hsafe⟩, nofun, trivial⟩
  · rintro t u past ⟨x, past', heq, hok, hcompiled, hfollowed⟩ hstep
    obtain ⟨rfl, rfl⟩ := List.cons.inj heq
    refine ⟨u, _, rfl, hok.step hstep, ?_, hfollowed.step hok hcompiled hstep⟩
    cases hstep with
    | round env h => exact hcompiled
    | line os stmts => exact hcompiled.nocCompile os stmts

/-- In every session and every run of a compiled line, with whatever lines are compiled meanwhile: an
`OP_CALL` that enters a function belongs to a call written in the source of the calling code. If the
function fits this call and no argument behind the first leaves an operand too many, the new frame
starts with the values of the written arguments, followed by the defaults of the parameters left
out. Builtins that write raw memory are taken to leave the stack and the frames of the machine
alone. -/
theorem arguments_delivered {stmts : List Stmt} {chunk : NocFn} {s : VmState}
    (hsession : Session reg) (hcompile : nocCompile os reg stmts = (reg', .ok chunk))
    {stack : ℕ → U64} (hstart : vmStart chunk stack = .ok s)
    {past : List (Registry × VmState)} (hhistory : History LiveStep (reg', s) (x :: past))
    (hcall : LiveStep x y) (hpush : x.2.frames.length < y.2.frames.length) :
    ∃ f rest name callee vbase count, Enters x y f rest name callee vbase count ∧
      f.fn.code = some f.code ∧ (∃ src : Source, src.Makes f.fn) ∧
      ∀ src : Source, src.Makes f.fn → ∃ site, src.Writes f.fn f.pc site ∧ site.name = name ∧
        (site.Tidy → site.Fits callee →
          Delivered (x :: past) f rest site callee vbase count y.2.stack) := by
  obtain ⟨x', past', heq, hok, hreg, hfollowed⟩ :=
    followed_history hsession hcompile hstart hhistory
  obtain ⟨rfl, rfl⟩ := List.cons.inj heq
  obtain ⟨f, rest, name, callee, count, henters⟩ := hcall.enters hpush
  obtain ⟨f', rest', ops, hframes, ⟨hsrc, hcode, hsited⟩, hheld, -⟩ := hfollowed
  obtain ⟨rfl, rfl⟩ := List.cons.inj (hframes.symm.trans henters.frames)
  refine ⟨f', rest', name, callee, _, count, henters, hcode, hsrc, fun src hmakes ↦ ?_⟩
  obtain ⟨si, hi, hname⟩ := henters.call
  obtain ⟨site, hsite, hwritten, hready⟩ := (hsited src hmakes).now si count hi
  refine ⟨site, hwritten, Option.some.inj (hsite.symm.trans hname), fun htidy hfits ↦ ?_⟩
  rw [henters.stack]
  have hbase := henters.base
  exact hready.delivered htidy hfits (hreg callee (mem_of_nocLookup henters.lookup) henters.code)
    hheld (by omega)

theorem History.of_vmRounds {env : VmEnv} {n : ℕ} {s t : VmState} {x₀ : Registry × VmState}
    {past : List (Registry × VmState)} (hhistory : History LiveStep x₀ ((reg, s) :: past))
    (h : vmRounds reg env n s = .ok t) : ∃ past', History LiveStep x₀ ((reg, t) :: past') := by
  induction n generalizing s past with
  | zero =>
    obtain rfl := Except.ok.inj h
    exact ⟨past, hhistory⟩
  | succ n ih =>
    obtain ⟨s₁, hstep, hrest⟩ := exists_of_bind_eq_ok h
    exact ih (hhistory.step (.round env hstep)) hrest

/-- The outermost frame stays that of the line. -/
theorem getLast_vmRounds {env : VmEnv} {n : ℕ} {s t : VmState} (h : vmRounds reg env n s = .ok t) :
    t.frames.getLast?.map Frame.fn = s.frames.getLast?.map Frame.fn := by
  induction n generalizing s with
  | zero =>
    obtain rfl := Except.ok.inj h
    rfl
  | succ n ih =>
    obtain ⟨s₁, hstep, hrest⟩ := exists_of_bind_eq_ok h
    rw [ih hrest]
    obtain ⟨f, rest, hframes, -, heffect⟩ := vmStep_effect hstep
    cases heffect with
    | move t ht hframes' _ _ =>
      rw [hframes, hframes']
      cases rest with
      | nil => rfl
      | cons g rest => rw [List.getLast?_cons_cons, List.getLast?_cons_cons]
    | enter si count name callee _ _ _ _ _ _ _ _ hframes' _ _ =>
      rw [hframes, hframes', List.getLast?_cons_cons]
      cases rest with
      | nil => rfl
      | cons g rest => rw [List.getLast?_cons_cons, List.getLast?_cons_cons]
    | leave _ hne hframes' _ _ =>
      rw [hframes, hframes']
      cases rest with
      | nil => exact absurd rfl hne
      | cons g rest => rw [List.getLast?_cons_cons]

/-- `Mul2(21);` behind the declaration of `Mul2` -/
def mul2Line : List Stmt := [mul2, .expr (.call (cstr "Mul2") [.lit 21])]

/-- The one call of this line fits the function that the line has declared. -/
theorem mul2_fits {chunk : NocFn} (hcompile : nocCompile os reg mul2Line = (reg', .ok chunk))
    {pos : ℕ} {site : CallSite} (hsite : (Source.line os reg mul2Line).Writes chunk pos site)
    {callee : NocFn} (hcallee : nocLookup reg' site.name = some callee) :
    site.Tidy ∧ site.Fits callee := by
  obtain ⟨τ, now, at_, s, -, hreach, hsite⟩ := hsite
  cases hreach with
  | here => exact absurd hsite id
  | stmt hs _ => cases hs
  | func hfn hreach =>
    -- nothing is declared behind the call, so both lookups are in one table
    have hreg : reg' = now := by
      have hline := congrArg Prod.fst hcompile
      simp only [mul2Line, mul2, nocCompile, compileLine] at hline
      rw [hfn] at hline
      cases hreach with
      | here =>
        simp only at hline
        split at hline
        · rename_i hlast
          split at hlast
          · obtain ⟨rfl, -⟩ := Prod.mk.inj hlast
            split at hline
            · exact hline.symm
            · exact hline.symm
          · cases (Prod.mk.inj hlast).2
        · rename_i hlast
          split at hlast
          · cases (Prod.mk.inj hlast).2
          · obtain ⟨rfl, -⟩ := Prod.mk.inj hlast
            exact hline.symm
      | stmt _ hreach => cases hreach
    cases hreach with
    | stmt _ hreach => cases hreach
    | here =>
      rcases hsite with ⟨-, hargs, m, si, q, -, hfound, -⟩ | hsite
      · rw [hreg, hfound] at hcallee
        obtain rfl := Option.some.inj hcallee
        refine ⟨?_, rfl⟩
        rw [CallSite.Tidy, hargs]
        rfl
      · rcases hsite with hsite | ⟨m, -, hsite⟩
        · exact absurd hsite id
        · exact absurd hsite id

/-- Whether the third round of a line calls a function from the line itself. -/
def lineCallsThird : Registry × Except CompileError NocFn → Bool
  | (reg, .ok chunk) =>
    match vmStart chunk fun _ ↦ 0 with
    | .ok s =>
      match vmRounds reg quietEnv 2 s with
      | .ok x =>
        match vmStep reg quietEnv x with
        | .ok y => decide (x.frames.length = 1 ∧ y.frames.length = 2)
        | .error _ => false
      | .error _ => false
    | .error _ => false
  | _ => false

/-- `I64 Mul2(I64 x, I64 y=2) { return x*y; } Mul2(21);` delivers 21 and the default. -/
theorem arguments_delivered_mul2 :
    ∃ (x y : Registry × VmState) (past : List (Registry × VmState)) (f : Frame) (rest : List Frame)
      (name : Name) (callee : NocFn) (vbase count : ℕ) (site : CallSite),
      Enters x y f rest name callee vbase count ∧
        Delivered (x :: past) f rest site callee vbase count y.2.stack := by
  have hthird : lineCallsThird (nocCompile ampleOs userTable mul2Line) = true := by decide +kernel
  unfold lineCallsThird at hthird
  split at hthird
  · rename_i reg' chunk hcompile
    split at hthird
    · rename_i s hstart
      split at hthird
      · rename_i x hrounds
        split at hthird
        · rename_i y hstep
          obtain ⟨hone, htwo⟩ := of_decide_eq_true hthird
          have hpush : x.frames.length < y.frames.length := by omega
          obtain ⟨past, hhistory⟩ := History.of_vmRounds .start hrounds
          obtain ⟨f, rest, name, callee, vbase, count, henters, -, -, hsites⟩ :=
            arguments_delivered session_userTable hcompile hstart hhistory (.round quietEnv hstep)
              hpush
          have hfn : f.fn = chunk := by
            have hlast := getLast_vmRounds hrounds
            obtain ⟨code, -, hframes, -⟩ := vmStart_spec hstart
            have hnil : rest = [] := by
              rw [henters.frames, List.length_cons] at hone
              exact List.length_eq_zero_iff.mp (by omega)
            rw [henters.frames, hframes, hnil] at hlast
            exact Option.some.inj hlast
          have hmakes : (Source.line ampleOs userTable mul2Line).Makes f.fn := by
            rw [hfn]
            exact congrArg Prod.snd hcompile
          obtain ⟨site, hwrites, rfl, hdelivered⟩ := hsites _ hmakes
          rw [hfn] at hwrites
          obtain ⟨htidy, hfits⟩ := mul2_fits hcompile hwrites henters.lookup
          exact ⟨_, _, past, f, rest, _, callee, vbase, count, site, henters,
            hdelivered htidy hfits⟩
        · cases hthird
      · cases hthird
    · cases hthird
  · cases hthird

/-! ### A function with another parameter -/

/-- `I64 F(I64 a) { return a; }` -/
def funF : Stmt :=
  .func .i64 (cstr "F") ⟨[⟨cstr "a", .i64, none⟩], by decide⟩ [.ret (some (.var (cstr "a")))]

/-- `I64 G() { return F(1); }` -/
def funG : Stmt :=
  .func .i64 (cstr "G") ⟨[], Nat.zero_le _⟩ [.ret (some (.call (cstr "F") [.lit 1]))]

/-- `I64 F(I64 a, I64 b) { return b; }` -/
def funF₂ : Stmt :=
  .func .i64 (cstr "F") ⟨[⟨cstr "a", .i64, none⟩, ⟨cstr "b", .i64, none⟩], by decide⟩
    [.ret (some (.var (cstr "b")))]

/-- The round enters a function with fewer operands than it has parameters, and the next parameter
has no default and starts as zero. -/
def zeroFills (x y : VmState) : Bool :=
  match x.frames, y.frames with
  | f :: _, g :: _ =>
    match (decode f.code f.pc).1 with
    | .call _ count =>
      decide (x.frames.length < y.frames.length ∧ count < g.fn.nargs ∧
        g.fn.defaults[count]? = some none ∧ y.stack (g.vbase + count) = 0)
    | _ => false
  | _, _ => false

theorem zeroFills_spec (h : zeroFills x.2 y.2 = true) (hstep : LiveStep x y) :
    ∃ f rest name callee vbase count, Enters x y f rest name callee vbase count ∧
      count < callee.nargs ∧ callee.defaults[count]? = some none ∧
      y.2.stack (vbase + count) = 0 := by
  unfold zeroFills at h
  split at h
  · rename_i f _ g _ hframes hframes'
    split at h
    · rename_i si count hi
      obtain ⟨hmore, hfew, hnone, hzero⟩ := of_decide_eq_true h
      obtain ⟨f', rest, name, callee, count', henters⟩ := hstep.enters hmore
      obtain ⟨rfl, -⟩ := List.cons.inj (hframes.symm.trans henters.frames)
      obtain ⟨rfl, -⟩ := List.cons.inj (hframes'.symm.trans henters.frames')
      obtain ⟨si', hi', -⟩ := henters.call
      obtain ⟨-, rfl⟩ := Instr.call.inj (hi.symm.trans hi')
      exact ⟨f, rest, name, callee, _, count, henters, hfew, hnone, hzero⟩
    · cases h
  · cases h

/-- The third round of a line zero-fills a parameter. -/
def zeroFillsThird : Registry × Except CompileError NocFn → Bool
  | (reg, .ok chunk) =>
    match vmStart chunk fun _ ↦ 0 with
    | .ok s =>
      match vmRounds reg quietEnv 2 s with
      | .ok x =>
        match vmStep reg quietEnv x with
        | .ok y => zeroFills x y
        | .error _ => false
      | .error _ => false
    | .error _ => false
  | _ => false

/-- `F` is redefined behind the function that calls it: the call passes one argument, and the second
parameter, which has no default, starts as zero. -/
theorem parameter_zero_filled :
    ∃ (reg' : Registry) (chunk : NocFn) (s : VmState) (x y : Registry × VmState)
      (past : List (Registry × VmState)), Session userTable ∧
      nocCompile ampleOs userTable [funF, funG, funF₂, .expr (.call (cstr "G") [])] =
        (reg', .ok chunk) ∧
      vmStart chunk (fun _ ↦ 0) = .ok s ∧ History LiveStep (reg', s) (x :: past) ∧ LiveStep x y ∧
      ∃ f rest name callee vbase count, Enters x y f rest name callee vbase count ∧
        callee.defaults[count]? = some none ∧ y.2.stack (vbase + count) = 0 ∧
        ∀ site, ¬ Delivered (x :: past) f rest site callee vbase count y.2.stack := by
  have hthird : zeroFillsThird (nocCompile ampleOs userTable
      [funF, funG, funF₂, .expr (.call (cstr "G") [])]) = true := by decide +kernel
  unfold zeroFillsThird at hthird
  split at hthird
  · rename_i reg' chunk hcompile
    split at hthird
    · rename_i s hstart
      split at hthird
      · rename_i x hrounds
        split at hthird
        · rename_i y hstep
          obtain ⟨past, hhistory⟩ := History.of_vmRounds .start hrounds
          have hlive : LiveStep (reg', x) (reg', y) := .round quietEnv hstep
          obtain ⟨f, rest, name, callee, vbase, count, henters, hfew, hnone, hzero⟩ :=
            zeroFills_spec (x := (reg', x)) (y := (reg', y)) hthird hlive
          refine ⟨reg', chunk, s, _, _, past, session_userTable, hcompile, hstart, hhistory, hlive,
            f, rest, name, callee, vbase, count, henters, hnone, hzero, fun site hdelivered ↦ ?_⟩
          exact absurd hdelivered.count_eq (Nat.ne_of_lt hfew)
        · cases hthird
      · cases hthird
    · cases hthird
  · cases hthird

end NoOsKernel.Noc
