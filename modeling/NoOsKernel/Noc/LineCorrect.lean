import Mathlib.Data.List.Nodup
import NoOsKernel.Noc.Correctness

/-!
# Whole lines

A line of integers that the compiler accepts, from the source to the result the machine leaves. The
one way for the machine to miss the meaning of a line is the quotient that is no word: the guard of
`OP_DIV` and `OP_MOD` tests for a zero divisor only, and the processor traps.
-/

set_option autoImplicit false
set_option relaxedAutoImplicit false

namespace NoOsKernel.Noc

open Lib

variable {os : NocOs} {reg reg' : Registry} {env : VmEnv} {s s' : VmState} {chunk : NocFn}
  {τ : Image} {p q d n : ℕ} {c c' : CComp} {E : Vars}

/-! ### The code of a line -/

/-- The code of a line stands from `p` to `q`; the value of a last expression stays. -/
def LineAt (reg : Registry) (τ : Image) : List (Name × NType) → List IntStmt → ℕ → ℕ → Prop
  | _, [], p, q => p = q
  | _, [.expr e], p, q => ExprAt reg τ e.toExpr p q
  | syms, st :: ss, p, q => ∃ m, StmtAt reg τ syms st.toStmt p m ∧
    LineAt reg τ (syms ++ declsOf st.toStmt) ss m q

/-- The line leaves the value of its last statement. -/
def EndsWithExpr (ss : List IntStmt) : Prop := ∃ e, ss.getLast? = some (.expr e)

theorem decls_types (init : IntInit) : ∀ sym ∈ init.toInit.decls, sym.2 ≠ .void := by
  cases init with
  | decl x type e =>
    intro sym hsym
    rw [List.mem_singleton.mp hsym]
    exact type.property
  | _ => exact fun _ h ↦ absurd h List.not_mem_nil

mutual

/-- No variable of a line of integers has type `U0`. -/
theorem declsOf_types : ∀ (s : IntStmt), ∀ sym ∈ declsOf s.toStmt, sym.2 ≠ .void
  | .expr _, _, h => absurd h List.not_mem_nil
  | .decl x type _, sym, h => by
    rw [List.mem_singleton.mp h]
    exact type.property
  | .block body, sym, h => declsOfBlock_types body sym h
  | .ifThen _ t, sym, h => declsOf_types t sym h
  | .ifElse _ t e, sym, h => by
    rcases List.mem_append.mp h with ht | he
    · exact declsOf_types t sym ht
    · exact declsOf_types e sym he
  | .while _ body, sym, h => declsOf_types body sym h
  | .for init _ _ body, sym, h => by
    rcases List.mem_append.mp h with hinit | hbody
    · exact decls_types init sym hinit
    · exact declsOf_types body sym hbody

theorem declsOfBlock_types : ∀ (ss : List IntStmt), ∀ sym ∈ declsOfBlock (toStmts ss),
    sym.2 ≠ .void
  | [], _, h => absurd h List.not_mem_nil
  | s :: ss, sym, h => by
    rcases List.mem_append.mp h with hs | hss
    · exact declsOf_types s sym hs
    · exact declsOfBlock_types ss sym hss

end

theorem exprType_ne_void (reg : Registry) {syms : List (Name × NType)}
    (htypes : ∀ sym ∈ syms, sym.2 ≠ .void) (e : IntExpr) : exprType reg syms e.toExpr ≠ .void := by
  cases e with
  | var x =>
    rw [IntExpr.toExpr, exprType]
    split
    · rename_i k hk
      obtain ⟨type, hsym⟩ := resolveVar_getElem? hk
      rw [List.getD_eq_getElem?_getD, hsym]
      exact htypes _ (List.mem_of_getElem? hsym)
    · rintro ⟨⟩
  | _ => rintro ⟨⟩

/-- The last statement of a line, when it is an expression. -/
theorem compileStmt_value {e : IntExpr} (hscope : e.Scoped (c.syms.map Prod.fst))
    (htypes : ∀ sym ∈ c.syms, sym.2 ≠ .void) (hin : c.inFn = false)
    (h : compileStmt os reg c true (.expr e.toExpr) = .ok c') :
    c'.lastExpr = true ∧ Lays c c' [] fun τ ↦ ExprAt reg τ e.toExpr (codePc c) (codePc c') := by
  rw [compileStmt, compileStmtExpr_eq, stmtExpr_of_scoped hscope] at h
  obtain ⟨c₁, h₁, h₂⟩ := exists_of_bind_eq_ok h
  have hexpr := compileExpr_lays _ h₁
  have hin₁ : c₁.inFn = false := hexpr.1.inFn.trans hin
  have hnonvoid := exprType_ne_void reg htypes e
  rw [finishExpr, if_pos (by rw [hin₁, decide_eq_true hnonvoid]; rfl)] at h₂
  obtain rfl := Except.ok.inj h₂
  exact ⟨rfl, (hexpr.andThen lays_keep).mono fun _ hτ ↦ hτ.1⟩

theorem lineAt_cons {st : IntStmt} {ss : List IntStmt} {syms : List (Name × NType)}
    (h : ss ≠ [] ∨ ∀ e, st ≠ .expr e) :
    LineAt reg τ syms (st :: ss) p q = ∃ m, StmtAt reg τ syms st.toStmt p m ∧
      LineAt reg τ (syms ++ declsOf st.toStmt) ss m q := by
  cases st with
  | expr e =>
    cases ss with
    | nil => exact absurd rfl (h.resolve_left (not_not.mpr rfl) e)
    | cons st' ss => rfl
  | _ => rfl

/-- Only an expression is compiled in another way at the end of a line. -/
theorem compileStmt_not_last {st : IntStmt} {ss : List IntStmt} (h : ss ≠ [] ∨ ∀ e, st ≠ .expr e) :
    compileStmt os reg c ss.isEmpty st.toStmt = compileStmt os reg c false st.toStmt := by
  cases ss with
  | cons st' ss => rfl
  | nil =>
    cases st with
    | expr e => exact absurd rfl (h.resolve_left (not_not.mpr rfl) e)
    | _ => rfl

theorem EndsWithExpr.tail {st : IntStmt} {ss : List IntStmt} (h : EndsWithExpr (st :: ss))
    (hmid : ss ≠ [] ∨ ∀ e, st ≠ .expr e) : EndsWithExpr ss := by
  obtain ⟨e, he⟩ := h
  cases ss with
  | nil => exact absurd (Option.some.inj he) (hmid.resolve_left (not_not.mpr rfl) e)
  | cons st' ss => exact ⟨e, by rwa [List.getLast?_cons_cons] at he⟩

theorem toStmts_isEmpty (ss : List IntStmt) : (toStmts ss).isEmpty = ss.isEmpty := by
  cases ss <;> rfl

/-- The code of every accepted line stands where it was emitted. -/
theorem compileLine_lineAt {ss : List IntStmt} (hscope : ScopedAll (c.syms.map Prod.fst) ss)
    (htypes : ∀ sym ∈ c.syms, sym.2 ≠ .void) (hin : c.inFn = false)
    (h : compileLine os reg c (toStmts ss) = (reg', .ok c')) :
    (EndsWithExpr ss → c'.lastExpr = true) ∧ Lays c c' (declsOfBlock (toStmts ss)) fun τ ↦
      LineAt reg τ c.syms ss (codePc c) (codePc c') := by
  induction ss generalizing c with
  | nil =>
    obtain ⟨-, hc⟩ := Prod.mk.inj h
    obtain rfl := Except.ok.inj hc
    refine ⟨fun ⟨e, he⟩ ↦ absurd he (by rintro ⟨⟩), (Lays.refl c).mono fun _ _ ↦ rfl⟩
  | cons st ss ih =>
    rw [toStmts] at h
    have hstep : ∃ c₁, compileStmt os reg c ss.isEmpty st.toStmt = .ok c₁ ∧
        compileLine os reg c₁ (toStmts ss) = (reg', .ok c') := by
      rcases compileLine_cons h with ⟨_, _, _, _, _, _, hfn, -⟩ | ⟨c₁, h₁, hrest⟩ | ⟨e, he⟩
      · cases st <;> exact absurd hfn (by rintro ⟨⟩)
      · rw [toStmts_isEmpty] at h₁
        exact ⟨c₁, h₁, hrest⟩
      · exact absurd (Prod.mk.inj he).2 (by rintro ⟨⟩)
    obtain ⟨c₁, h₁, hrest⟩ := hstep
    by_cases hmid : ss ≠ [] ∨ ∀ e, st ≠ .expr e
    · have h₁ : compileStmt os reg c false st.toStmt = .ok c₁ := by
        rw [← h₁, compileStmt_not_last hmid]
      have hst := compileStmt_lays st.toStmt h₁
      have hsyms := hst.1.syms
      have hscope' : ScopedAll (c₁.syms.map Prod.fst) ss := by
        rw [hsyms, List.map_append, map_fst_declsOf]
        exact hscope.2
      have htypes' : ∀ sym ∈ c₁.syms, sym.2 ≠ .void := by
        rw [hsyms]
        intro sym hsym
        rcases List.mem_append.mp hsym with hold | hnew
        · exact htypes sym hold
        · exact declsOf_types st sym hnew
      obtain ⟨hvalue, hlays⟩ := ih hscope' htypes' (hst.1.inFn.trans hin) hrest
      refine ⟨fun hends ↦ hvalue (hends.tail hmid), (hst.andThen hlays).mono fun τ hτ ↦ ?_⟩
      rw [hsyms] at hτ
      rw [lineAt_cons hmid]
      exact ⟨_, hτ⟩
    · push Not at hmid
      obtain ⟨rfl, e, rfl⟩ := hmid
      obtain ⟨-, hc⟩ := Prod.mk.inj hrest
      obtain rfl := Except.ok.inj hc
      obtain ⟨hkept, hlays⟩ := compileStmt_value hscope.1 htypes hin h₁
      exact ⟨fun _ ↦ hkept, hlays⟩

/-! ### The run of a line -/

/-- A line has left the variables and the value of the semantics. -/
structure LineDone (chunk : NocFn) (τ : Image) (q : ℕ) (r : Vars × Option U64) (t : VmState) :
    Prop where
  inChunk : ∃ d, InChunk chunk τ t q d
  holds : Holds τ r.1 t.stack
  value : ∀ v, r.2 = some v → t.stack τ.syms.length = v

theorem execLine_sim {ss : List IntStmt} {syms : List (Name × NType)}
    (hcode : LineAt reg' τ syms ss p q) (hscope : ScopedAll (syms.map Prod.fst) ss)
    (h : StmtDone chunk τ p E s) :
    RanSim reg env s (execLine true n ss E) (LineDone chunk τ q) := by
  induction ss generalizing syms p E s with
  | nil =>
    obtain rfl : p = q := hcode
    exact ranSim_of_sim (Sim.done ⟨⟨0, h.inChunk⟩, h.holds, fun v hv ↦ absurd hv (by rintro ⟨⟩)⟩)
  | cons st ss ih =>
    by_cases hmid : ss ≠ [] ∨ ∀ e, st ≠ .expr e
    · rw [lineAt_cons hmid] at hcode
      rw [execLine_cons hmid]
      obtain ⟨m, hst, hss⟩ := hcode
      refine (execStmt_sim st hst hscope.1 h).andThen fun E₁ t₁ h₁ ↦ ih hss ?_ h₁
      rw [List.map_append, map_fst_declsOf]
      exact hscope.2
    · push Not at hmid
      obtain ⟨rfl, e, rfl⟩ := hmid
      refine ranSim_of_sim ?_
      have hsim : Sim reg env s (e.eval true E >>= fun r ↦ .ok (r.2, some r.1))
          (LineDone chunk τ q) := by
        refine Sim.bind (e.sim hcode h.inChunk h.holds) fun r t ht ↦ Sim.done ?_
        refine ⟨⟨_, ht.inChunk⟩, ht.holds, fun v hv ↦ ?_⟩
        obtain rfl := Option.some.inj hv
        exact ht.value
      cases heval : e.eval true E with
      | error a =>
        rw [heval] at hsim
        exact hsim
      | ok r =>
        rw [heval] at hsim
        exact hsim

/-! ### Ends of runs -/

/-- The run of a chunk ends in this way. -/
def RunEnds (reg : Registry) (env : VmEnv) (chunk : NocFn) (stack : ℕ → U64) (out : VmOutcome) :
    Prop :=
  ∃ fuel, nocVmRun reg env fuel chunk stack = some out

theorem runLoop_of_reach {stop : Stop} (h : VmReach reg env s s')
    (hstop : vmStep reg env s' = .error stop) : ∃ fuel, runLoop reg env fuel s = some stop := by
  induction h using Relation.ReflTransGen.head_induction_on with
  | refl => exact ⟨1, by rw [runLoop, hstop]⟩
  | head hstep _ ih =>
    obtain ⟨fuel, hfuel⟩ := ih
    refine ⟨fuel + 1, ?_⟩
    rw [runLoop, show vmStep reg env _ = .ok _ from hstep]
    exact hfuel

theorem runLoop_unique {m : ℕ} {stop stop' : Stop} (h : runLoop reg env n s = some stop)
    (h' : runLoop reg env m s = some stop') : stop = stop' := by
  induction n generalizing s m with
  | zero => exact absurd h (by rintro ⟨⟩)
  | succ n ih =>
    cases m with
    | zero => exact absurd h' (by rintro ⟨⟩)
    | succ m =>
      rw [runLoop] at h h'
      cases hstep : vmStep reg env s with
      | ok t =>
        rw [hstep] at h h'
        exact ih h h'
      | error stop₀ =>
        rw [hstep] at h h'
        exact Option.some.inj (h.symm.trans h')

theorem RunEnds.unique {stack : ℕ → U64} {out out' : VmOutcome}
    (h : RunEnds reg env chunk stack out) (h' : RunEnds reg env chunk stack out') : out = out' := by
  obtain ⟨n, hn⟩ := h
  obtain ⟨m, hm⟩ := h'
  unfold nocVmRun at hn hm
  cases hstart : vmStart chunk stack with
  | error stop =>
    rw [hstart] at hn hm
    exact Option.some.inj (hn.symm.trans hm)
  | ok s₀ =>
    rw [hstart] at hn hm
    simp only at hn hm
    split at hn
    · exact absurd hn (by rintro ⟨⟩)
    · rename_i stop hloop
      split at hm
      · exact absurd hm (by rintro ⟨⟩)
      · rename_i stop' hloop'
        obtain rfl := runLoop_unique hloop hloop'
        exact Option.some.inj (hn.symm.trans hm)

/-- The machine has given up. -/
def StopsEarly (out : VmOutcome) : Prop :=
  out.stop = .error .stackOverflow ∨ out.stop = .error .interrupted

/-- The run ends as the meaning `r` of a line with the variables `names` says: the machine reports
the division by zero, or it halts with the variables in their slots in the order of their
declarations and with the value of a last expression as its result. -/
def Follows (names : List Name) (r : Except Abort (Vars × Option U64)) (out : VmOutcome) : Prop :=
  match r with
  | .error .divisionByZero => out.stop = .error .divisionByZero
  | .error .quotientOverflow => False
  | .ok (E, v) => ∃ s, out.stop = .halt s ∧ (∀ k x, names[k]? = some x → s.stack k = E x) ∧
    ∀ w, v = some w → out.result = some w

theorem resolveVar_getElem {syms : List (Name × NType)} (hnodup : (syms.map Prod.fst).Nodup)
    {k : ℕ} {x : Name} (h : (syms.map Prod.fst)[k]? = some x) : resolveVar syms x = some k := by
  obtain ⟨hlt, heq⟩ := List.getElem?_eq_some_iff.mp h
  obtain ⟨j, hj⟩ := Option.isSome_iff_exists.mp
    (isSome_resolveVar (heq ▸ List.getElem_mem hlt))
  obtain ⟨type, hsym⟩ := resolveVar_getElem? hj
  have hname : (syms.map Prod.fst)[j]? = some x := by
    rw [List.getElem?_map, hsym]
    rfl
  obtain ⟨hlt', heq'⟩ := List.getElem?_eq_some_iff.mp hname
  have hjk : j = k := hnodup.getElem_inj_iff.mp (heq'.trans heq.symm)
  rw [hj, hjk]

/-- What is known of the chunk of a line. -/
structure LineChunk (reg : Registry) (ss : List IntStmt) (chunk : NocFn) (τ : Image) (q q' : ℕ) :
    Prop where
  code : chunk.code = some τ.code
  nlocals : chunk.nlocals = τ.syms.length
  syms : τ.syms = declsOfBlock (toStmts ss)
  distinct : (τ.syms.map Prod.fst).Nodup
  small : τ.syms.length ≤ nocMaxLocals
  lineAt : LineAt reg τ [] ss 0 q
  halt : InstrAt τ.code q .halt q'
  value : EndsWithExpr ss → chunk.lastExpr = true

theorem nocCompile_lineChunk {ss : List IntStmt} (hscope : ScopedAll [] ss)
    (h : nocCompile os reg (toStmts ss) = (reg', .ok chunk)) :
    ∃ τ q q', LineChunk reg ss chunk τ q q' := by
  unfold nocCompile at h
  split at h
  · rename_i reg₁ c₁ hline
    split at h
    · rename_i c₂ hhalt
      obtain ⟨rfl, hchunk⟩ := Prod.mk.inj h
      obtain rfl := Except.ok.inj hchunk
      obtain ⟨hvalue, hlays⟩ := compileLine_lineAt (c := .start [] false 0) hscope
        (fun _ h ↦ absurd h List.not_mem_nil) rfl hline
      have hall := hlays.andThen (emit_instr_lays .halt trivial hhalt)
      have hbounded : Bounded (.start [] false 0) := bounded_start (Nat.zero_le _)
      obtain ⟨hcode, hi⟩ := hall.at_image hbounded
      refine ⟨c₂.image, codePc c₁, codePc c₂, rfl, rfl, ?_, hall.1.distinct List.Pairwise.nil,
        (hall.1.bounded hbounded).syms, hcode, hi, fun hends ↦ ?_⟩
      · rw [CComp.image, hall.1.syms, List.append_nil]
        rfl
      · exact (emit_instr_lays .halt trivial hhalt).1.lastExpr (hvalue hends)
    · exact absurd (Prod.mk.inj h).2 (by rintro ⟨⟩)
  · exact absurd (Prod.mk.inj h).2 (by rintro ⟨⟩)

theorem endsWithExpr_of_value {strict : Bool} {ss : List IntStmt} {r : Vars × Option U64} {v : U64}
    (h : execLine strict n ss E = some (.ok r)) (hv : r.2 = some v) : EndsWithExpr ss := by
  induction ss generalizing E with
  | nil =>
    obtain rfl := Except.ok.inj (Option.some.inj h)
    exact absurd hv (by rintro ⟨⟩)
  | cons st ss ih =>
    by_cases hmid : ss ≠ [] ∨ ∀ e, st ≠ .expr e
    · rw [execLine_cons hmid] at h
      match hst : execStmt strict n st E, h with
      | some (.ok E₁), h =>
        obtain ⟨e, he⟩ := ih h
        refine ⟨e, ?_⟩
        cases ss with
        | nil => exact absurd he (by rintro ⟨⟩)
        | cons st' ss => rwa [List.getLast?_cons_cons]
      | some (.error a), h => exact absurd (Option.some.inj h) (by rintro ⟨⟩)
      | none, h => exact absurd h (by rintro ⟨⟩)
    · push Not at hmid
      obtain ⟨rfl, e, rfl⟩ := hmid
      exact ⟨e, rfl⟩

theorem pushZeros_ok (hroom : s.sp + n ≤ nocStackSize) : ∃ s', pushZeros n s = .ok s' := by
  induction n generalizing s with
  | zero => exact ⟨s, rfl⟩
  | succ n ih =>
    have hpush : vmPush s 0 =
        .ok { s with stack := Function.update s.stack s.sp 0, sp := s.sp + 1 } := by
      rw [vmPush, if_neg (by omega)]
    obtain ⟨s', hs'⟩ := ih (s := { s with stack := Function.update s.stack s.sp 0, sp := s.sp + 1 })
      (by simp only; omega)
    exact ⟨s', by rw [pushZeros, hpush]; exact hs'⟩

/-- A chunk whose variables fit the stack starts. -/
theorem vmStart_ok {code : List Byte} (hcode : chunk.code = some code)
    (hlocals : chunk.nlocals ≤ nocStackSize) (stack : ℕ → U64) :
    ∃ s₀, vmStart chunk stack = .ok s₀ := by
  obtain ⟨s₁, hs₁⟩ := pushZeros_ok (s := ⟨stack, 0, [], 0⟩) (n := chunk.nlocals) (by simpa)
  refine ⟨{ s₁ with frames := [⟨chunk, code, 0, 0, chunk.nlocals⟩] }, ?_⟩
  rw [vmStart, hcode]
  simp only [if_neg (Nat.not_lt_of_le hlocals), hs₁]
  rfl

/-- The run of the chunk of a line starts with all variables zero. -/
theorem LineChunk.start {ss : List IntStmt} {q' : ℕ} (h : LineChunk reg' ss chunk τ q q')
    (stack : ℕ → U64) :
    ∃ s₀, vmStart chunk stack = .ok s₀ ∧ StmtDone chunk τ 0 zeroVars s₀ := by
  have hsmall : chunk.nlocals ≤ nocStackSize := by
    have hle := h.small
    rw [nocMaxLocals] at hle
    rw [h.nlocals, nocStackSize]
    omega
  obtain ⟨s₀, hs₀⟩ := vmStart_ok h.code hsmall stack
  obtain ⟨code, hcode, hframes, hsp, -, hzero⟩ := vmStart_spec hs₀
  obtain rfl := Option.some.inj (hcode.symm.trans h.code)
  refine ⟨s₀, hs₀, ⟨?_, ?_⟩, fun x k hk ↦ ?_⟩
  · rw [hframes, h.nlocals]
  · rw [hsp, h.nlocals, Nat.add_zero]
  · have hlt := resolveVar_lt hk
    exact hzero k (by rw [h.nlocals]; exact hlt)

/-- The run of a chunk follows the strict meaning of its line, gives up, or traps at a quotient that
is no word. -/
theorem strict_line_run (reg : Registry) (env : VmEnv) {ss : List IntStmt} {q' : ℕ}
    (h : LineChunk reg' ss chunk τ q q') (hscope : ScopedAll [] ss)
    {r : Except Abort (Vars × Option U64)}
    (hexec : execLine true n ss zeroVars = some r) (stack : ℕ → U64) :
    ∃ out, RunEnds reg env chunk stack out ∧
      (StopsEarly out ∨ Follows (namesOf ss) r out ∨
        r = .error .quotientOverflow ∧ out.stop = .trap) := by
  obtain ⟨s₀, hstart, hdone⟩ := h.start stack
  obtain ⟨t, hreach, ht⟩ : Sim reg env s₀ r (LineDone chunk τ q) :=
    execLine_sim h.lineAt hscope hdone r hexec
  have hrun : ∀ stop, vmStep reg env t = .error stop →
      RunEnds reg env chunk stack ⟨stop, takeResult chunk stop⟩ := by
    intro stop hstop
    obtain ⟨fuel, hfuel⟩ := runLoop_of_reach hreach hstop
    exact ⟨fuel, by rw [nocVmRun, hstart]; simp only [hfuel]⟩
  rcases ht with hup | ht
  · rcases hup with hfull | hkey
    · exact ⟨_, hrun _ hfull, Or.inl (Or.inl rfl)⟩
    · exact ⟨_, hrun _ hkey, Or.inl (Or.inr rfl)⟩
  · match r, hexec, ht with
    | .error .divisionByZero, _, ht => exact ⟨_, hrun _ ht, Or.inr (Or.inl rfl)⟩
    | .error .quotientOverflow, _, ht => exact ⟨_, hrun _ ht, Or.inr (Or.inr ⟨rfl, rfl⟩)⟩
    | .ok (E, v), hexec, ht =>
      obtain ⟨d, hin⟩ := ht.inChunk
      rcases hin.vmStep reg env h.halt with hkey | hhalt
      · exact ⟨_, hrun _ hkey, Or.inl (Or.inr rfl)⟩
      · refine ⟨_, hrun _ hhalt, Or.inr (Or.inl ⟨_, rfl, fun k x hk ↦ ?_, fun w hw ↦ ?_⟩)⟩
        · refine ht.holds x k (resolveVar_getElem h.distinct ?_)
          rw [h.syms, map_fst_declsOfBlock, hk]
        · have hkept := h.value (endsWithExpr_of_value hexec hw)
          rw [takeResult, if_pos hkept, h.nlocals]
          exact congrArg some (ht.value w hw)

/-! ### Main result -/

/-- A line whose meaning ends with `r` runs as it means, or the machine gives up, if and only if the
machine gives up or the line never divides the least integer by `-1`. -/
theorem line_run_iff {ss : List IntStmt} (hscope : ScopedAll [] ss)
    (hcompile : nocCompile os reg (toStmts ss) = (reg', .ok chunk))
    {r : Except Abort (Vars × Option U64)} (hexec : execLine false n ss zeroVars = some r)
    (env : VmEnv) (stack : ℕ → U64) :
    (∃ out, RunEnds reg' env chunk stack out ∧ (StopsEarly out ∨ Follows (namesOf ss) r out)) ↔
      (∃ out, RunEnds reg' env chunk stack out ∧ StopsEarly out) ∨ NoQuotientOverflow ss := by
  obtain ⟨τ, q, q', hline⟩ := nocCompile_lineChunk hscope hcompile
  constructor
  · rintro ⟨out, hout, hearly | hfollows⟩
    · exact Or.inl ⟨out, hout, hearly⟩
    · by_cases hover : NoQuotientOverflow ss
      · exact Or.inr hover
      · unfold NoQuotientOverflow at hover
        push Not at hover
        obtain ⟨m, hm⟩ := hover
        obtain ⟨out', hout', hearly | hfalse | ⟨-, htrap⟩⟩ :=
          strict_line_run reg' env hline hscope hm stack
        · exact Or.inl ⟨out', hout', hearly⟩
        · exact absurd hfalse id
        · -- the run that traps is the run that followed the meaning
          obtain rfl := hout.unique hout'
          match r, hfollows with
          | .error .divisionByZero, hfollows =>
            exact absurd (htrap.symm.trans hfollows) (by rintro ⟨⟩)
          | .ok (E, v), ⟨s, hs, _⟩ => exact absurd (htrap.symm.trans hs) (by rintro ⟨⟩)
  · rintro (⟨out, hout, hearly⟩ | hover)
    · exact ⟨out, hout, Or.inl hearly⟩
    · have hstrict : execLine true n ss zeroVars = some r := by
        rcases execLine_agrees n ss zeroVars with hbad | hsame
        · exact absurd hbad (hover n)
        · rw [hsame, hexec]
      obtain ⟨out, hout, hearly | hfollows | ⟨rfl, -⟩⟩ :=
        strict_line_run reg' env hline hscope hstrict stack
      · exact ⟨out, hout, Or.inl hearly⟩
      · exact ⟨out, hout, Or.inr hfollows⟩
      · exact absurd hstrict (hover n)

/-- `I64 s=0; for (I64 i=0;i<4;i++) s+=i; s;` -/
def sumLine : List IntStmt :=
  [.decl (cstr "s") ⟨.i64, by decide⟩ (some (.lit 0)),
    .for (.decl (cstr "i") ⟨.i64, by decide⟩ (some (.lit 0)))
      (some (.bin .lt (.var (cstr "i")) (.lit 4))) (some (.postinc (cstr "i") true))
      (.expr (.assign .add (cstr "s") (.var (cstr "i")))),
    .expr (.var (cstr "s"))]

theorem scoped_sumLine : ScopedAll [] sumLine := by
  simp [sumLine, ScopedAll, IntStmt.Scoped, IntInit.Scoped, ScopedOpt, IntExpr.Scoped,
    IntInit.names, IntStmt.names]

theorem line_run_iff_sumLine :
    ∃ reg' chunk r, nocCompile ampleOs userTable (toStmts sumLine) = (reg', .ok chunk) ∧
      execLine false 9 sumLine zeroVars = some r ∧
      ((∃ out, RunEnds reg' quietEnv chunk (fun _ ↦ 0) out ∧
          (StopsEarly out ∨ Follows (namesOf sumLine) r out)) ↔
        (∃ out, RunEnds reg' quietEnv chunk (fun _ ↦ 0) out ∧ StopsEarly out) ∨
          NoQuotientOverflow sumLine) := by
  obtain ⟨chunk, hchunk⟩ := exists_chunk ampleOs userTable (toStmts sumLine) (by decide +kernel)
  obtain ⟨r, hr⟩ : ∃ r, execLine false 9 sumLine zeroVars = some r :=
    Option.isSome_iff_exists.mp (by decide +kernel)
  exact ⟨_, chunk, r, hchunk, hr, line_run_iff scoped_sumLine hchunk hr quietEnv _⟩

/-- `(1 << 63) / -1;` -/
def quotientLine : List IntStmt :=
  [.expr (.bin .div (.bin .shl (.lit 1) (.lit 63)) (.un .neg (.lit 1)))]

/-- Whether a run ended in a trap. -/
def trapped : Option VmOutcome → Bool
  | some ⟨.trap, _⟩ => true
  | _ => false

theorem runEnds_of_trapped {fuel : ℕ} {stack : ℕ → U64}
    (h : trapped (nocVmRun reg env fuel chunk stack) = true) :
    ∃ result, RunEnds reg env chunk stack ⟨.trap, result⟩ := by
  match hrun : nocVmRun reg env fuel chunk stack, h with
  | some ⟨.trap, result⟩, _ => exact ⟨result, fuel, hrun⟩

/-- The line means the least integer, and the machine traps. -/
theorem line_run_fails_at_quotientLine :
    ScopedAll [] quotientLine ∧
      execLine false 1 quotientLine zeroVars = some (.ok (zeroVars, some (BitVec.intMin 64))) ∧
      ∃ reg' chunk, nocCompile ampleOs userTable (toStmts quotientLine) = (reg', .ok chunk) ∧
        ¬ ∃ out, RunEnds reg' quietEnv chunk (fun _ ↦ 0) out ∧ (StopsEarly out ∨
          Follows (namesOf quotientLine) (.ok (zeroVars, some (BitVec.intMin 64))) out) := by
  refine ⟨⟨⟨⟨trivial, trivial⟩, trivial⟩, trivial⟩, rfl, ?_⟩
  obtain ⟨chunk, hchunk⟩ := exists_chunk ampleOs userTable (toStmts quotientLine)
    (by decide +kernel)
  refine ⟨_, chunk, hchunk, ?_⟩
  rintro ⟨out, hout, hcases⟩
  have htrap : trapped (match (nocCompile ampleOs userTable (toStmts quotientLine)).2 with
      | .ok chunk => nocVmRun (nocCompile ampleOs userTable (toStmts quotientLine)).1 quietEnv 9
          chunk fun _ ↦ 0
      | .error _ => none) = true := by decide +kernel
  rw [hchunk] at htrap
  obtain ⟨result, hends⟩ := runEnds_of_trapped htrap
  obtain rfl := hout.unique hends
  rcases hcases with (hfull | hkey) | ⟨s, hs, -⟩
  · exact absurd hfull (by rintro ⟨⟩)
  · exact absurd hkey (by rintro ⟨⟩)
  · exact absurd hs (by rintro ⟨⟩)

end NoOsKernel.Noc
