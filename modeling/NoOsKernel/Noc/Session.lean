import NoOsKernel.Lib.Runs
import NoOsKernel.Noc.Depth

/-!
# Sessions

A session starts with the builtins and compiles one line after the other; each line may register
functions, also a line that is then rejected. In every table a session reaches, the code of every
function is safe from its first instruction on with no operands at all, and so is the chunk of every
line.
-/

set_option autoImplicit false
set_option relaxedAutoImplicit false

namespace NoOsKernel.Noc

open Lib

/-- The line a session compiles next and the allocations it meets. -/
structure LineInput where
  os : NocOs
  stmts : List Stmt

/-- A table that some sequence of lines leaves behind. -/
def Session (reg : Registry) : Prop :=
  ∃ os user, Run (fun reg (line : LineInput) ↦ (nocCompile line.os reg line.stmts).1)
    (fun _ _ ↦ True) (nocInit os user) reg

/-- The code of a function never runs out of operands from its start on. -/
def NocFn.Safe (known : Name → Prop) (inFn : Bool) (f : NocFn) : Prop :=
  ∃ code, f.code = some code ∧
    Lib.Safe (DepthOk known f.nlocals f.strings inFn code) (DepthNext code) (0, 0)

/-- All functions of the table that have code are safe. -/
def RegSafe (reg : Registry) : Prop := ∀ f ∈ reg, f.builtin = none → f.Safe (Known reg) true

variable {os : NocOs} {reg reg' : Registry} {known : Name → Prop} {c c' : CComp}
  {ds : List (Name × NType)}

/-- Safe code stays safe when more names become known. -/
theorem depthSafe_mono {known' : Name → Prop} {nlocals : ℕ} {strings : List Name} {inFn : Bool}
    {code : List Byte} {x : ℕ × ℕ} (hknown : ∀ name, known name → known' name)
    (h : Lib.Safe (DepthOk known nlocals strings inFn code) (DepthNext code) x) :
    Lib.Safe (DepthOk known' nlocals strings inFn code) (DepthNext code) x := by
  refine fun n ↦ SafeFor.of_simulation (R := Eq) ?_ ?_ rfl (h n)
  · rintro s t rfl ⟨hlt, hlegal, hle⟩
    refine ⟨hlt, ?_, hle⟩
    revert hlegal
    cases (decode code s.1).1 with
    | call si count => exact fun ⟨name, hname, hk⟩ ↦ ⟨name, hname, hknown name hk⟩
    | _ => exact id
  · rintro s t t' rfl hnext
    exact ⟨t', hnext, rfl⟩

theorem NocFn.Safe.mono {known' : Name → Prop} {inFn : Bool} {f : NocFn}
    (h : f.Safe known inFn) (hknown : ∀ name, known name → known' name) : f.Safe known' inFn := by
  obtain ⟨code, hcode, hsafe⟩ := h
  exact ⟨code, hcode, depthSafe_mono hknown hsafe⟩

/-! ### Finished code -/

/-- What the compiler has at the end. -/
def CComp.image (c : CComp) : Image := ⟨c.code, c.syms, c.strings, c.inFn⟩

/-- The code of the last step stands where it was emitted. -/
theorem Extends.placed {ds : List (Name × NType)} (h : Extends c c' ds) (hb : Bounded c) :
    Placed c'.image c c' where
  code _ _ _ := rfl
  syms := List.prefix_refl _
  resolve _ _ hx := hx
  strings := List.prefix_refl _
  inFn := rfl
  small := (h.bounded hb).toSmall

/-- What the last step lays out is there in the end. -/
theorem Lays.at_image {Q : Image → Prop} (h : Lays c c' ds Q) (hb : Bounded c) : Q c'.image :=
  h.2 _ (h.1.placed hb)

theorem bounded_start {syms : List (Name × NType)} {inFn : Bool} {nalloc : ℕ}
    (h : syms.length ≤ nocMaxLocals) : Bounded (CComp.start syms inFn nalloc) :=
  ⟨⟨Nat.zero_le _, h, Nat.zero_le _⟩, le_rfl, Nat.zero_le _⟩

/-! ### Functions -/

/-- A compiled function is safe, whether or not it is registered. -/
theorem compileBody_safe {type : NType} {name : Name} {params : Params} {body : List Stmt}
    {nalloc : ℕ} {sub : CComp} (h : compileBody os reg params.val body nalloc = .ok sub) :
    (userFn type name params.val sub).Safe (Known reg) true := by
  obtain ⟨c₁, h₁, h⟩ := exists_of_bind_eq_ok h
  obtain ⟨c₂, h₂, h₃⟩ := exists_of_bind_eq_ok h
  have hlays := (compileBlock_lays body h₁).andThen
    ((emit_instr_lays (.push 0) trivial h₂).andThen (emit_instr_lays .ret trivial h₃))
  have hparams : (params.val.map fun p ↦ (p.name, p.type)).length ≤ nocMaxLocals := by
    have hle : params.val.length ≤ 16 := params.property
    rw [List.length_map, nocMaxLocals]
    omega
  obtain ⟨hblock, hpush, hret⟩ := hlays.at_image (bounded_start hparams)
  have hin : sub.inFn = true := hlays.1.inFn
  refine ⟨sub.code, rfl, fun n ↦ ?_⟩
  have hend : OkFor (Known reg) sub.image n (codePc c₁) 0 := by
    refine hpush.okFor_of_straight rfl trivial le_rfl ?_ le_rfl
    exact hret.okFor hin le_rfl fun _ ht ↦ absurd ht List.not_mem_nil
  have hstart : OkFor (Known reg) sub.image n 0 0 := hblock.okFor (fun _ hname ↦ hname) hend
  rw [← hin]
  exact hstart

theorem RegSafe.register {f : NocFn} (hreg : RegSafe reg)
    (hf : f.builtin = none → f.Safe (Known reg) true) (h : nocRegisterUserFn reg f = some reg') :
    RegSafe reg' := by
  intro g hg hcode
  have hknown : ∀ name, Known reg name → Known reg' name := fun _ ↦ known_of_register h
  rcases mem_of_register h hg with rfl | hold
  · exact (hf hcode).mono hknown
  · exact (hreg g hold hcode).mono hknown

theorem regSafe_nocInitFrom {i : ℕ} {bs : List NocBuiltin} (hreg : RegSafe reg) :
    RegSafe (nocInitFrom os reg i bs) := by
  induction bs generalizing reg i with
  | nil => exact hreg
  | cons b bs ih =>
    apply ih
    unfold nocRegisterBuiltin
    split_ifs with halloc
    · cases hregister : nocRegisterUserFn reg (builtinFn b i) with
      | none => exact hreg
      | some reg' => exact hreg.register (fun hcode ↦ absurd hcode (by rintro ⟨⟩)) hregister
    · exact hreg

/-! ### Lines -/

/-- A function of a line: the table grows by a safe function. -/
theorem compileFuncdecl_spec {type : NType} {name : Name} {params : Params} {body : List Stmt}
    {nalloc nalloc' : ℕ}
    (h : compileFuncdecl os reg nalloc type name params body = .ok (reg', nalloc')) :
    (∀ name, Known reg name → Known reg' name) ∧ (RegSafe reg → RegSafe reg') := by
  unfold compileFuncdecl at h
  split_ifs at h
  obtain ⟨sub, hsub, h⟩ := exists_of_bind_eq_ok h
  split at h
  · rename_i reg₁ hregister
    obtain ⟨rfl, rfl⟩ := Prod.mk.inj (Except.ok.inj h)
    exact ⟨fun _ ↦ known_of_register hregister,
      fun hreg ↦ hreg.register (fun _ ↦ compileBody_safe hsub) hregister⟩
  · exact absurd h (by rintro ⟨⟩)

/-- A chunk that keeps its last value has the same code. -/
theorem lays_keep : Lays c { c with lastExpr := true } [] fun _ ↦ True :=
  ⟨{ Extends.refl c with
      lastExpr := fun _ ↦ rfl
      bounded := fun hb ↦ ⟨⟨hb.code, hb.syms, hb.strings⟩, hb.len_le, hb.cap_le⟩ },
    fun _ _ ↦ trivial⟩

/-- The last statement of a line may leave its value. -/
theorem compileStmt_last_lays {last : Bool} {s : Stmt}
    (h : compileStmt os reg c last s = .ok c') :
    Lays c c' (declsOf s) fun τ ↦ StmtAt reg τ c.syms s (codePc c) (codePc c') ∨
      ∃ e, s = .expr e ∧ ExprAt reg τ (stmtExpr reg c.syms e) (codePc c) (codePc c') := by
  have hfalse : compileStmt os reg c false s = .ok c' →
      Lays c c' (declsOf s) fun τ ↦ StmtAt reg τ c.syms s (codePc c) (codePc c') ∨
        ∃ e, s = .expr e ∧ ExprAt reg τ (stmtExpr reg c.syms e) (codePc c) (codePc c') :=
    fun h ↦ (compileStmt_lays s h).mono fun _ hs ↦ Or.inl hs
  cases s with
  | expr e =>
    rw [compileStmt, compileStmtExpr_eq] at h
    obtain ⟨c₁, h₁, h₂⟩ := exists_of_bind_eq_ok h
    have hexpr := compileExpr_lays _ h₁
    unfold finishExpr at h₂
    split_ifs at h₂ with hkeep
    · obtain rfl := Except.ok.inj h₂
      exact (hexpr.andThen lays_keep).mono fun _ hτ ↦ Or.inr ⟨e, rfl, hτ.1⟩
    · exact (hexpr.andThen (emit_instr_lays .pop trivial h₂)).mono
        fun _ hτ ↦ Or.inl ⟨_, hτ⟩
  | decl x type init => exact hfalse h
  | block body => exact hfalse h
  | ifThen cond t => exact hfalse h
  | ifElse cond t e => exact hfalse h
  | «while» cond body => exact hfalse h
  | «for» init cond post body => exact hfalse h
  | ret e => exact hfalse h
  | func type name params body => exact hfalse h

/-- One step of a line. -/
theorem compileLine_cons {s : Stmt} {ss : List Stmt} {r : Registry × Compiled}
    (h : compileLine os reg c (s :: ss) = r) :
    (∃ type name params body reg₁ nalloc, s = .func type name params body ∧
      compileFuncdecl os reg c.nalloc type name params body = .ok (reg₁, nalloc) ∧
      compileLine os reg₁ { c with nalloc := nalloc } ss = r) ∨
    (∃ c₁, compileStmt os reg c ss.isEmpty s = .ok c₁ ∧ compileLine os reg c₁ ss = r) ∨
    ∃ e, r = (reg, .error e) := by
  by_cases hfunc : ∃ type name params body, s = .func type name params body
  · obtain ⟨type, name, params, body, rfl⟩ := hfunc
    rw [compileLine] at h
    split at h
    · exact Or.inl ⟨type, name, params, body, _, _, rfl, by assumption, h⟩
    · exact Or.inr (Or.inr ⟨_, h.symm⟩)
  · have hstmt : ∀ type name params body, s = .func type name params body → False :=
      fun type name params body heq ↦ hfunc ⟨type, name, params, body, heq⟩
    rw [compileLine.eq_3 os reg c s ss hstmt] at h
    split at h
    · exact Or.inr (Or.inl ⟨_, by assumption, h⟩)
    · exact Or.inr (Or.inr ⟨_, h.symm⟩)

/-- A line keeps the table safe, whether or not it is accepted. -/
theorem RegSafe.compileLine {ss : List Stmt} {r : Compiled} (hreg : RegSafe reg)
    (h : compileLine os reg c ss = (reg', r)) : RegSafe reg' := by
  induction ss generalizing reg c with
  | nil =>
    obtain ⟨rfl, -⟩ := Prod.mk.inj h
    exact hreg
  | cons s ss ih =>
    rcases compileLine_cons h with ⟨_, _, _, _, _, _, -, hfn, hrest⟩ | ⟨_, -, hrest⟩ | ⟨e, he⟩
    · exact ih ((compileFuncdecl_spec hfn).2 hreg) hrest
    · exact ih hreg hrest
    · obtain ⟨rfl, -⟩ := Prod.mk.inj he
      exact hreg

/-- The code of a line is safe before its first statement if it is behind its last. -/
theorem compileLine_lays {ss : List Stmt} (h : compileLine os reg c ss = (reg', .ok c')) :
    (∀ name, Known reg name → Known reg' name) ∧
      ∃ ds, Lays c c' ds fun τ ↦ ∀ n d, OkFor (Known reg') τ n (codePc c') d →
        OkFor (Known reg') τ n (codePc c) d := by
  induction ss generalizing reg c with
  | nil =>
    obtain ⟨rfl, hc⟩ := Prod.mk.inj h
    obtain rfl := Except.ok.inj hc
    exact ⟨fun _ hname ↦ hname, [], (Lays.refl c).mono fun _ _ _ _ hok ↦ hok⟩
  | cons s ss ih =>
    rcases compileLine_cons h with ⟨_, _, _, _, _, nalloc, -, hfn, hrest⟩ | ⟨c₁, hs, hrest⟩ | ⟨e, he⟩
    · obtain ⟨hknown, ds, hlays⟩ := ih hrest
      refine ⟨fun name hname ↦ hknown name ((compileFuncdecl_spec hfn).1 name hname), ds, ?_⟩
      have hcount : Lays c { c with nalloc := nalloc } [] fun _ ↦ True :=
        ⟨{ Extends.refl c with
            bounded := fun hb ↦ ⟨⟨hb.code, hb.syms, hb.strings⟩, hb.len_le, hb.cap_le⟩ },
          fun _ _ ↦ trivial⟩
      exact (hcount.andThen hlays).mono fun _ hτ ↦ hτ.2
    · obtain ⟨hknown, ds, hlays⟩ := ih hrest
      refine ⟨hknown, _, ((compileStmt_last_lays hs).andThen hlays).mono ?_⟩
      rintro τ ⟨hs | ⟨e, -, he⟩, hss⟩ n d hok
      · exact hs.okFor hknown (hss n d hok)
      · exact he.okFor hknown ((hss n d hok).mono (Nat.le_succ d))
    · exact absurd (Prod.mk.inj he).2 (by rintro ⟨⟩)

/-- The chunk of a line is safe. -/
theorem nocCompile_safe {stmts : List Stmt} {chunk : NocFn}
    (h : nocCompile os reg stmts = (reg', .ok chunk)) : chunk.Safe (Known reg') false := by
  unfold nocCompile at h
  split at h
  · rename_i reg₁ c₁ hline
    split at h
    · rename_i c₂ hhalt
      obtain ⟨rfl, hchunk⟩ := Prod.mk.inj h
      obtain rfl := Except.ok.inj hchunk
      obtain ⟨-, ds, hlays⟩ := compileLine_lays hline
      have hall := hlays.andThen (emit_instr_lays .halt trivial hhalt)
      obtain ⟨hok, hi⟩ := hall.at_image (bounded_start (Nat.zero_le _))
      refine ⟨c₂.code, rfl, fun n ↦ ?_⟩
      have hin : c₂.inFn = false := hall.1.inFn
      have hstart : OkFor (Known reg₁) c₂.image n 0 0 :=
        hok n 0 (hi.okFor trivial le_rfl fun _ ht ↦ absurd ht List.not_mem_nil)
      rw [← hin]
      exact hstart
    · exact absurd (Prod.mk.inj h).2 (by rintro ⟨⟩)
  · exact absurd (Prod.mk.inj h).2 (by rintro ⟨⟩)

theorem RegSafe.nocCompile (hreg : RegSafe reg) (os : NocOs) (stmts : List Stmt) :
    RegSafe (nocCompile os reg stmts).1 := by
  unfold Noc.nocCompile
  split
  · rename_i reg₁ c₁ hline
    split
    · exact hreg.compileLine hline
    · exact hreg.compileLine hline
  · rename_i reg₁ e hline
    exact hreg.compileLine hline

/-- In every table a session reaches, all functions are safe. -/
theorem Session.regSafe (h : Session reg) : RegSafe reg := by
  obtain ⟨os, user, hrun⟩ := h
  refine hrun.invariant RegSafe ?_ fun _ line hreg _ ↦ hreg.nocCompile line.os line.stmts
  exact regSafe_nocInitFrom fun f hf ↦ absurd hf List.not_mem_nil

/-! ### A small session -/

/-- A machine with a megabyte to spare for every allocation. -/
def ampleOs : NocOs where
  alloc := fun _ n ↦ decide (n ≤ 2 ^ 20)
  alloc_le := by
    intro _ n h
    have hle := of_decide_eq_true h
    omega

/-- The first table of such a process. -/
def userTable : Registry := nocInit ampleOs true

/-- `I64 Mul2(I64 x, I64 y=2) { return x*y; }`, the function of `noc_selftest`. -/
def mul2 : Stmt :=
  .func .i64 (cstr "Mul2") ⟨[⟨cstr "x", .i64, none⟩, ⟨cstr "y", .i64, some 2⟩], by decide⟩
    [.ret (some (.bin .mul (.var (cstr "x")) (.var (cstr "y"))))]

theorem session_userTable : Session userTable := ⟨ampleOs, true, .refl⟩

/-- A line that compiles has a chunk. -/
theorem exists_chunk (os : NocOs) (reg : Registry) (stmts : List Stmt)
    (h : (nocCompile os reg stmts).2.isOk = true) :
    ∃ chunk, nocCompile os reg stmts = ((nocCompile os reg stmts).1, .ok chunk) := by
  cases hresult : (nocCompile os reg stmts).2 with
  | error e =>
    rw [hresult] at h
    exact absurd h (by rintro ⟨⟩)
  | ok chunk => exact ⟨chunk, Prod.ext rfl hresult⟩

end NoOsKernel.Noc
