import NoOsKernel.Noc.Exec
import NoOsKernel.Noc.Safety

/-!
# Scripts that run inside a run

The builtin `Run` executes a script from inside a running line: it saves the machine, feeds the
lines of the script to `noc_exec_line`, which compiles them and runs each on the same machine, and
restores what it has saved. `DraftRun` compiles a line without running it. All of them register the
functions their lines define, and a registration frees the function it replaces at once.

`Interp` is `kernel/noc/vm.c` with its function table, the machine and the saved machines. Along with
each frame but the outermost, which is the line itself, it keeps the object of the table that the
frame points to.
-/

set_option autoImplicit false
set_option relaxedAutoImplicit false

namespace NoOsKernel.Noc

open Lib

/-! ### States -/

/-- The machine, with the objects of its frames but the outermost. -/
structure Machine where
  vm : VmState
  objs : List FnObj

/-- What `b_Run` keeps: the saved machine, the number of arguments of its call and the lines of the
script it has not executed. A line is `none` when `noc_lex` or `noc_parse` rejects it. -/
structure Suspended where
  machine : Machine
  count : ℕ
  lines : List (Option (List Stmt))

/-- The state of `vm.c`. `active` says whether `run_loop` is executing the machine, or `b_Run` is
between two lines; the saved machines are listed from the inside out. -/
structure Interp where
  table : FnTable
  machine : Machine
  active : Bool
  saved : List Suspended

/-- All machines there are. -/
def Interp.machines (x : Interp) : List Machine := x.machine :: x.saved.map Suspended.machine

/-! ### Steps -/

/-- What the `OP_CALL` at the program counter calls, and its number of arguments. -/
def nextCall (t : FnTable) (s : VmState) : Option (FnObj × ℕ) :=
  match s.frames with
  | [] => none
  | f :: _ =>
    match (decode f.code f.pc).1 with
    | .call si count => ((f.fn.strings[si]?).bind (lookupObj t.objs)).map (·, count)
    | _ => none

/-- The machine behind a round that has led to `s'`. -/
def Machine.move (t : FnTable) (m : Machine) (s' : VmState) : Machine where
  vm := s'
  objs :=
    if m.vm.frames.length < s'.frames.length then
      ((nextCall t m.vm).map Prod.fst).toList ++ m.objs
    else if s'.frames.length < m.vm.frames.length then m.objs.tail
    else m.objs

/-- The next instruction calls the builtin of that name with at least one argument. -/
def CallsBuiltin (t : FnTable) (s : VmState) (name : Name) (count : ℕ) : Prop :=
  ∃ o i, nextCall t s = some (o, count) ∧ o.fn.builtin = some i ∧
    ((nocBuiltins false)[i]?).map NocBuiltin.name = some name ∧ 0 < count ∧ count ≤ s.sp

/-- The end of an `OP_CALL` of a builtin that returns `ret`. -/
def returnBuiltin (s : VmState) (count : ℕ) (ret : U64) : Vm VmState :=
  match s.frames with
  | [] => .error (.error .noFrame)
  | f :: rest =>
    vmPush { s with
      frames := { f with pc := (decode f.code f.pc).2 } :: rest
      iters := s.iters + 1
      sp := s.sp - count } ret

/-- The machine after `noc_vm_run` has cleared it. -/
def Machine.cleared (stack : ℕ → U64) : Machine := ⟨⟨stack, 0, [], 0⟩, []⟩

/-- `noc_exec_line` up to its `run_loop`. -/
def Interp.startLine (x : Interp) (os : NocOs) (stmts : List Stmt) : Interp :=
  let r := nocCompileIn os x.table stmts
  match r.2 with
  | .error _ => { x with table := r.1 }
  | .ok chunk =>
    match vmStart chunk x.machine.vm.stack with
    | .ok s => { x with table := r.1, machine := ⟨s, []⟩, active := true }
    | .error _ => { x with table := r.1, machine := Machine.cleared x.machine.vm.stack }

/-- The end of `b_Run`, which returns `0`. -/
def Interp.restore (x : Interp) (m : Machine) (count : ℕ) (rest : List Suspended) : Interp :=
  match returnBuiltin m.vm count 0 with
  | .ok s => { x with machine := ⟨s, m.objs⟩, active := true, saved := rest }
  | .error _ => { x with machine := m, active := false, saved := rest }

/-- A step, where lines are compiled only if `allowed`. The script that `Run` executes and the line
that a builtin like `DraftRun` checks can be any. -/
inductive InterpStep (allowed : Interp → NocOs → List Stmt → Prop) : Interp → Interp → Prop
  | round {x : Interp} {s' : VmState} (env : VmEnv) (hactive : x.active = true)
      (hstep : vmStep x.table.registry env x.machine.vm = .ok s') :
      InterpStep allowed x { x with machine := x.machine.move x.table s' }
  | stop {x : Interp} {stop : Stop} (env : VmEnv) (hactive : x.active = true)
      (hstop : vmStep x.table.registry env x.machine.vm = .error stop) :
      InterpStep allowed x { x with active := false }
  | check {x : Interp} {name : Name} {count : ℕ} {stmts : List Stmt} (os : NocOs)
      (hactive : x.active = true) (hcall : CallsBuiltin x.table x.machine.vm name count)
      (hallowed : allowed x os stmts) :
      InterpStep allowed x { x with table := (nocCheckSyntax os x.table (some stmts)).1 }
  | run {x : Interp} {count : ℕ} (lines : List (Option (List Stmt))) (hactive : x.active = true)
      (hcall : CallsBuiltin x.table x.machine.vm (cstr "Run") count) :
      InterpStep allowed x
        { x with active := false, saved := ⟨x.machine, count, lines⟩ :: x.saved }
  | badLine {x : Interp} {m : Machine} {count : ℕ} {lines : List (Option (List Stmt))}
      {rest : List Suspended} (hactive : x.active = false)
      (hsaved : x.saved = ⟨m, count, none :: lines⟩ :: rest) :
      InterpStep allowed x { x with saved := ⟨m, count, lines⟩ :: rest }
  | line {x : Interp} {m : Machine} {count : ℕ} {stmts : List Stmt}
      {lines : List (Option (List Stmt))} {rest : List Suspended} (os : NocOs)
      (hactive : x.active = false) (hsaved : x.saved = ⟨m, count, some stmts :: lines⟩ :: rest)
      (hallowed : allowed x os stmts) :
      InterpStep allowed x { x.startLine os stmts with saved := ⟨m, count, lines⟩ :: rest }
  | restore {x : Interp} {m : Machine} {count : ℕ} {rest : List Suspended}
      (hactive : x.active = false) (hsaved : x.saved = ⟨m, count, []⟩ :: rest) :
      InterpStep allowed x (x.restore m count rest)

/-- A run of a line, from the table `t` on, with all that is executed inside it. -/
def InterpRun (allowed : Interp → NocOs → List Stmt → Prop) (t : FnTable) (os : NocOs)
    (stmts : List Stmt) (stack : ℕ → U64) : Interp → Prop :=
  Relation.ReflTransGen (InterpStep allowed)
    (Interp.startLine ⟨t, Machine.cleared stack, false, []⟩ os stmts)

/-! ### Functions a line replaces -/

/-- The names of the definitions that the compiler accepts. -/
def acceptedNames (os : NocOs) (t : FnTable) (c : CComp) : List Stmt → List Name
  | [] => []
  | .func type name params body :: ss =>
    match compileFuncdeclIn os t c.nalloc type name params body with
    | .ok (t', nalloc) => name :: acceptedNames os t' { c with nalloc := nalloc } ss
    | .error _ => []
  | s :: ss =>
    match compileStmt os t.registry c ss.isEmpty s with
    | .ok c' => acceptedNames os t c' ss
    | .error _ => []

/-- No definition the line adds has the name of a function that a frame points to. -/
def Spares (x : Interp) (os : NocOs) (stmts : List Stmt) : Prop :=
  ∀ m ∈ x.machines, ∀ o ∈ m.objs,
    o.fn.name ∉ acceptedNames os x.table (CComp.start [] false 0) stmts

variable {os : NocOs} {t t' : FnTable} {o : FnObj} {m : Machine} {x y : Interp}

theorem mem_objs_register {f : NocFn} (h : t.register f = some t') (ho : o ∈ t.objs)
    (hname : o.fn.name ≠ f.name) : o ∈ t'.objs := by
  obtain ⟨r, hr, hobjs, -, -⟩ := FnTable.register_eq_some h
  rw [hobjs]
  rcases registerObj_cases hr with ⟨i, old, hold, heq, rfl⟩ | ⟨-, -, rfl⟩
  · obtain ⟨j, hj⟩ := List.mem_iff_getElem?.mp ho
    have hij : i ≠ j := by
      rintro rfl
      rw [hold] at hj
      obtain rfl := Option.some.inj hj
      exact hname heq
    refine List.mem_of_getElem? (i := j) ?_
    rw [List.getElem?_set_ne hij, hj]
  · exact List.mem_append_left _ ho

/-- An object stays in the table unless its name is defined again. -/
theorem mem_objs_compileLineIn {c : CComp} {ss : List Stmt} (ho : o ∈ t.objs)
    (hname : o.fn.name ∉ acceptedNames os t c ss) : o ∈ (compileLineIn os t c ss).1.objs := by
  induction ss generalizing t c with
  | nil => exact ho
  | cons s ss ih =>
    cases s with
    | func type name params body =>
      rw [acceptedNames] at hname
      rw [compileLineIn]
      rcases compileFuncdeclIn_cases os t c.nalloc type name params body with
        ⟨-, e, hfail⟩ | ⟨-, sub, t₁, -, hregister, hok⟩
      · rw [hfail]
        exact ho
      · simp only [hok, List.mem_cons, not_or] at hname ⊢
        exact ih (mem_objs_register hregister ho hname.1) hname.2
    | _ =>
      simp only [acceptedNames, compileLineIn] at hname ⊢
      split
      · rename_i c' hstmt
        rw [hstmt] at hname
        exact ih ho hname
      · exact ho

/-! ### Frames and objects -/

/-- The frames of the machine but the outermost are those of its objects, and these are all in the
table. -/
structure Machine.Owned (t : FnTable) (m : Machine) : Prop where
  fns : (m.vm.frames.map Frame.fn).dropLast = m.objs.map FnObj.fn
  present : ∀ o ∈ m.objs, o ∈ t.objs

/-- A machine is not touched by what happens to the table, unless a function of it goes. -/
theorem Machine.Owned.transfer (h : m.Owned t) (hkeep : ∀ o ∈ m.objs, o ∈ t.objs → o ∈ t'.objs) :
    m.Owned t' :=
  ⟨h.fns, fun o ho ↦ hkeep o ho (h.present o ho)⟩

/-- A machine that executes only its line. -/
theorem owned_of_length_le_one {s : VmState} (h : s.frames.length ≤ 1) : Machine.Owned t ⟨s, []⟩ := by
  refine ⟨?_, fun o ho ↦ absurd ho List.not_mem_nil⟩
  rw [List.map_nil, ← List.length_eq_zero_iff, List.length_dropLast, List.length_map]
  exact Nat.sub_eq_zero_of_le h

/-- The object a call looks up has the value the machine finds. -/
theorem nextCall_of_lookup {s : VmState} {f : Frame} {rest : List Frame} {si count : ℕ} {name : Name}
    {callee : NocFn} (hframes : s.frames = f :: rest) (hi : (decode f.code f.pc).1 = .call si count)
    (hname : f.fn.strings[si]? = some name) (hcallee : nocLookup t.registry name = some callee) :
    ∃ o, nextCall t s = some (o, count) ∧ o ∈ t.objs ∧ o.fn = callee := by
  rw [nocLookup, FnTable.registry, List.find?_map] at hcallee
  obtain ⟨o, ho, rfl⟩ := Option.map_eq_some_iff.mp hcallee
  refine ⟨o, ?_, List.mem_of_find?_eq_some ho, rfl⟩
  have hlookup : lookupObj t.objs name = some o := ho
  simp only [nextCall, hframes, hi, hname, Option.bind_some, hlookup, Option.map_some]

theorem Machine.Owned.round {env : VmEnv} {s' : VmState} (h : m.Owned t)
    (hstep : vmStep t.registry env m.vm = .ok s') : (m.move t s').Owned t := by
  obtain ⟨f, rest, hframes, -, heffect⟩ := vmStep_effect hstep
  have hfns := h.fns
  rw [hframes, List.map_cons] at hfns
  unfold Machine.move
  cases heffect with
  | move q hq hframes' _ _ =>
    have hlen : s'.frames.length = m.vm.frames.length := by
      rw [hframes', hframes]
      rfl
    rw [if_neg (by omega), if_neg (by omega)]
    refine ⟨?_, h.present⟩
    rw [hframes']
    exact hfns
  | enter si count name callee hi hname hcallee _ _ _ _ _ hframes' _ _ =>
    obtain ⟨o, hcall, ho, rfl⟩ := nextCall_of_lookup hframes hi hname hcallee
    have hlen : m.vm.frames.length < s'.frames.length := by
      rw [hframes', hframes, List.length_cons, List.length_cons, List.length_cons]
      omega
    rw [if_pos hlen, hcall]
    refine ⟨?_, fun u hu ↦ ?_⟩
    · rw [hframes', List.map_cons, List.map_cons]
      exact congrArg (o.fn :: ·) hfns
    · rcases List.mem_cons.mp hu with rfl | hu
      · exact ho
      · exact h.present u hu
  | leave _ hrest hframes' _ _ =>
    have hlen : s'.frames.length < m.vm.frames.length := by
      rw [hframes', hframes, List.length_cons]
      omega
    rw [if_neg (by omega), if_pos hlen]
    refine ⟨?_, fun u hu ↦ h.present u (List.mem_of_mem_tail hu)⟩
    rw [List.dropLast_cons_of_ne_nil (by simpa using hrest)] at hfns
    rw [hframes', List.map_tail, ← hfns, List.tail_cons]

theorem Machine.Owned.returnBuiltin {count : ℕ} {ret : U64} {s' : VmState} (h : m.Owned t)
    (hreturn : returnBuiltin m.vm count ret = .ok s') : Machine.Owned t ⟨s', m.objs⟩ := by
  refine ⟨?_, h.present⟩
  have hfns := h.fns
  unfold Noc.returnBuiltin at hreturn
  split at hreturn
  · cases hreturn
  · rename_i f rest hframes
    rw [hframes] at hfns
    rw [vmPush_eq_ok hreturn]
    exact hfns

/-! ### Runs -/

/-- All machines point to functions of the table. -/
def Interp.Owned (x : Interp) : Prop := ∀ m ∈ x.machines, m.Owned x.table

theorem owned_iff : x.Owned ↔
    x.machine.Owned x.table ∧ ∀ u ∈ x.saved, u.machine.Owned x.table := by
  simp only [Interp.Owned, Interp.machines, List.forall_mem_cons, List.forall_mem_map]

theorem Interp.Owned.transfer (h : x.Owned) {os : NocOs} {stmts : List Stmt}
    (hspare : Spares x os stmts) (hm : m ∈ x.machines) :
    m.Owned (nocCompileIn os x.table stmts).1 := by
  refine (h m hm).transfer fun o ho hin ↦ ?_
  rw [nocCompileIn_fst]
  exact mem_objs_compileLineIn hin (hspare m hm o ho)

theorem owned_cleared (stack : ℕ → U64) : (Machine.cleared stack).Owned t :=
  owned_of_length_le_one (Nat.zero_le _)

/-- The line that is started, and the machines that wait. -/
theorem Interp.Owned.startLine {os : NocOs} {stmts : List Stmt}
    (hmachine : x.machine.Owned (nocCompileIn os x.table stmts).1) :
    (x.startLine os stmts).machine.Owned (x.startLine os stmts).table ∧
      (x.startLine os stmts).table = (nocCompileIn os x.table stmts).1 := by
  unfold Interp.startLine
  simp only
  split
  · exact ⟨hmachine, rfl⟩
  · split
    · rename_i chunk _ s hstart
      obtain ⟨code, -, hframes, -⟩ := vmStart_spec hstart
      refine ⟨owned_of_length_le_one ?_, rfl⟩
      rw [hframes]
      exact le_rfl
    · exact ⟨owned_cleared _, rfl⟩

theorem startLine_saved (os : NocOs) (stmts : List Stmt) : (x.startLine os stmts).saved = x.saved := by
  unfold Interp.startLine
  simp only
  split
  · rfl
  · split <;> rfl

theorem Interp.Owned.step (h : x.Owned) (hstep : InterpStep Spares x y) : y.Owned := by
  obtain ⟨hmachine, hwaiting⟩ := owned_iff.mp h
  cases hstep with
  | round env _ hround => exact owned_iff.mpr ⟨hmachine.round hround, hwaiting⟩
  | stop env _ _ => exact h
  | check os _ _ hspare => exact fun m hm ↦ h.transfer hspare hm
  | run lines _ _ => exact owned_iff.mpr ⟨hmachine, List.forall_mem_cons.mpr ⟨hmachine, hwaiting⟩⟩
  | badLine _ hsaved =>
    rw [hsaved] at hwaiting
    exact owned_iff.mpr ⟨hmachine, List.forall_mem_cons.mpr (List.forall_mem_cons.mp hwaiting)⟩
  | line os _ hsaved hspare =>
    obtain ⟨hstarted, htable⟩ := Interp.Owned.startLine (h.transfer hspare List.mem_cons_self)
    have hkept : ∀ u ∈ x.saved, u.machine.Owned (nocCompileIn os x.table _).1 := fun u hu ↦
      h.transfer hspare (List.mem_cons_of_mem _ (List.mem_map_of_mem hu))
    rw [hsaved, ← htable] at hkept
    exact owned_iff.mpr ⟨hstarted, List.forall_mem_cons.mpr (List.forall_mem_cons.mp hkept)⟩
  | restore _ hsaved =>
    rw [hsaved] at hwaiting
    obtain ⟨hm, hrest⟩ := List.forall_mem_cons.mp hwaiting
    unfold Interp.restore
    split
    · rename_i s' hreturn
      exact owned_iff.mpr ⟨hm.returnBuiltin hreturn, hrest⟩
    · exact owned_iff.mpr ⟨hm, hrest⟩

/-- No frame of any machine points to a function that has been freed: the functions of all frames
but the outermost are those of the objects, and no object is released. -/
def Interp.FramesLive (x : Interp) : Prop :=
  ∀ m ∈ x.machines, (m.vm.frames.map Frame.fn).dropLast = m.objs.map FnObj.fn ∧
    ∀ o ∈ m.objs, o.id ∉ x.table.released

theorem Interp.Owned.framesLive (h : x.Owned) : x.FramesLive :=
  fun m hm ↦ ⟨(h m hm).fns, fun o ho ↦ x.table.live o ((h m hm).present o ho)⟩

/-- In every run of a line, with all scripts that are run inside it: as long as no line that is
compiled on the way defines a function of which a frame is there, no frame points to a function that
has been freed. -/
theorem frames_live_of_spared {os : NocOs} {stmts : List Stmt} {stack : ℕ → U64}
    (hrun : InterpRun Spares t os stmts stack x) : x.FramesLive := by
  have howned : x.Owned := by
    induction hrun with
    | refl =>
      have hidle : (Machine.cleared stack).Owned (nocCompileIn os t stmts).1 := owned_cleared stack
      obtain ⟨hstarted, -⟩ := Interp.Owned.startLine (x := ⟨t, _, false, []⟩) hidle
      refine owned_iff.mpr ⟨hstarted, fun u hu ↦ ?_⟩
      rw [startLine_saved] at hu
      exact absurd hu List.not_mem_nil
    | tail _ hstep ih => exact ih.step hstep
  exact howned.framesLive

/-- The next round, when nothing happens at the keyboard. -/
def Interp.next (x : Interp) : Interp :=
  match vmStep x.table.registry quietEnv x.machine.vm with
  | .ok s' => { x with machine := x.machine.move x.table s' }
  | .error _ => { x with active := false }

theorem interpStep_next {allowed : Interp → NocOs → List Stmt → Prop} (hactive : x.active = true) :
    InterpStep allowed x x.next := by
  unfold Interp.next
  split
  · rename_i s' hround
    exact .round quietEnv hactive hround
  · rename_i stop hstop
    exact .stop quietEnv hactive hstop

/-- `I64 F() { Run("s"); return 1; } F();` -/
def runsScript : List Stmt :=
  [.func .i64 (cstr "F") ⟨[], Nat.zero_le _⟩
      [.expr (.call (cstr "Run") [.str (cstr "s")]), .ret (some (.lit 1))],
    .expr (.call (cstr "F") [])]

/-- The start of that line in the kernel's first table. -/
def runsScriptStart : Interp :=
  Interp.startLine ⟨FnTable.init ampleOs false, Machine.cleared fun _ ↦ 0, false, []⟩ ampleOs runsScript

/-- Inside `F`, at the call of `Run`. -/
def atRun : Interp := runsScriptStart.next.next

/-- The script of one line, before that line. -/
def inScript (line : Stmt) : Interp :=
  { atRun with active := false, saved := [⟨atRun.machine, 1, [some [line]]⟩] }

/-- The script of one line, behind that line. -/
def afterScript (line : Stmt) : Interp :=
  { (inScript line).startLine ampleOs [line] with saved := [⟨atRun.machine, 1, []⟩] }

theorem atRun_facts : runsScriptStart.active = true ∧ runsScriptStart.next.active = true ∧
    atRun.active = true ∧ atRun.saved.length = 0 ∧ 1 ≤ atRun.machine.vm.sp ∧
    (nextCall atRun.table atRun.machine.vm).map (fun r ↦ (r.1.fn.builtin, r.2)) =
      some (some 34, 1) := by
  decide +kernel

theorem afterScript_run {allowed : Interp → NocOs → List Stmt → Prop} {line : Stmt}
    (hallowed : allowed (inScript line) ampleOs [line]) :
    InterpRun allowed (FnTable.init ampleOs false) ampleOs runsScript (fun _ ↦ 0)
      (afterScript line) := by
  obtain ⟨hfirst, hsecond, hactive, hidle, hsp, hnext⟩ := atRun_facts
  obtain ⟨⟨o, count⟩, hlookup, hvalues⟩ := Option.map_eq_some_iff.mp hnext
  obtain ⟨hbuiltin, rfl⟩ := Prod.mk.inj hvalues
  have hcall : CallsBuiltin atRun.table atRun.machine.vm (cstr "Run") 1 :=
    ⟨o, 34, hlookup, hbuiltin, by decide, Nat.one_pos, hsp⟩
  have hrun : InterpStep allowed atRun (inScript line) := by
    have hstep : InterpStep allowed atRun _ := .run [some [line]] hactive hcall
    rwa [List.length_eq_zero_iff.mp hidle] at hstep
  exact (((Relation.ReflTransGen.single (interpStep_next hfirst)).tail (interpStep_next hsecond)).tail
    hrun).tail (.line ampleOs rfl rfl hallowed)

instance (x : Interp) (os : NocOs) (stmts : List Stmt) : Decidable (Spares x os stmts) :=
  inferInstanceAs (Decidable (∀ m ∈ x.machines, ∀ o ∈ m.objs,
    o.fn.name ∉ acceptedNames os x.table (CComp.start [] false 0) stmts))

/-- `I64 G() { return 1; }` -/
def otherOne : Stmt := .func .i64 (cstr "G") ⟨[], Nat.zero_le _⟩ [.ret (some (.lit 1))]

/-- The script defines `G` while `F` is active. -/
theorem frames_live_of_spared_other : Spares (inScript otherOne) ampleOs [otherOne] ∧
    (afterScript otherOne).FramesLive :=
  have hspare : Spares (inScript otherOne) ampleOs [otherOne] := by decide +kernel
  ⟨hspare, frames_live_of_spared (afterScript_run hspare)⟩

/-- The script defines `F` while `F` is active: the saved machine will go on in code that has been
freed. -/
theorem frames_freed_by_script :
    ∃ x, InterpRun (fun _ _ _ ↦ True) (FnTable.init ampleOs false) ampleOs runsScript (fun _ ↦ 0) x ∧
      ¬ x.FramesLive := by
  refine ⟨afterScript one, afterScript_run trivial, fun hlive ↦ ?_⟩
  have hfreed : ∃ m ∈ (afterScript one).machines, ∃ o ∈ m.objs,
      o.id ∈ (afterScript one).table.released := by
    decide +kernel
  obtain ⟨m, hm, o, ho, hreleased⟩ := hfreed
  exact (hlive m hm).2 o ho hreleased

end NoOsKernel.Noc
