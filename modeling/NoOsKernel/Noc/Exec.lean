import NoOsKernel.Noc.FnTable

/-!
# Checking a line

`noc_compile` and `noc_check_syntax` (`kernel/noc/exec.c`) over the table of objects. The compiler
registers each function as soon as its body is compiled: nothing takes the registration back when a
later statement is rejected, or when the line was only to be checked.
-/

set_option autoImplicit false
set_option relaxedAutoImplicit false

namespace NoOsKernel.Noc

open Lib

/-! ### The compiler over objects -/

/-- `compile_funcdecl` on a line: the new table and the number of allocations so far. -/
def compileFuncdeclIn (os : NocOs) (t : FnTable) (nalloc : ℕ) (type : NType) (name : Name)
    (params : Params) (body : List Stmt) : Except CompileError (FnTable × ℕ) :=
  if !os.alloc nalloc nocFnSize then .error .functionMemory
  else if !os.alloc (nalloc + 1) (name.length + 1) then .error .functionNameMemory
  else do
    let sub ← compileBody os t.registry params.val body (nalloc + 2)
    match t.register (userFn type name params.val sub) with
    | some t' => return (t', sub.nalloc)
    | none => throw .tableFull

/-- The loop of `noc_compile`. -/
def compileLineIn (os : NocOs) (t : FnTable) (c : CComp) : List Stmt → FnTable × Compiled
  | [] => (t, .ok c)
  | .func type name params body :: ss =>
    match compileFuncdeclIn os t c.nalloc type name params body with
    | .ok (t', nalloc) => compileLineIn os t' { c with nalloc := nalloc } ss
    | .error e => (t, .error e)
  | s :: ss =>
    match compileStmt os t.registry c ss.isEmpty s with
    | .ok c' => compileLineIn os t c' ss
    | .error e => (t, .error e)

/-- `noc_compile`. -/
def nocCompileIn (os : NocOs) (t : FnTable) (stmts : List Stmt) :
    FnTable × Except CompileError NocFn :=
  match compileLineIn os t (CComp.start [] false 0) stmts with
  | (t', .ok c) =>
    match emit1 os c opHalt with
    | .ok c => (t', .ok (chunkFn c))
    | .error e => (t', .error e)
  | (t', .error e) => (t', .error e)

/-- `noc_check_syntax` on a line of which `noc_lex` and `noc_parse` have made `source`, which is
`none` where one of them, or the memory for the line, has failed. -/
def nocCheckSyntax (os : NocOs) (t : FnTable) (source : Option (List Stmt)) : FnTable × Bool :=
  match source with
  | none => (t, false)
  | some stmts =>
    let r := nocCompileIn os t stmts
    (r.1, r.2.isOk)

variable {os : NocOs} {t t' : FnTable} {c c' : CComp} {type : NType} {name : Name}
  {params : Params} {body : List Stmt} {nalloc : ℕ}

/-! ### What is registered -/

/-- A function definition is rejected: no memory, a body that does not compile, or no room in the
table. -/
def DefinitionFails (os : NocOs) (reg : Registry) (nalloc : ℕ) (name : Name) (params : Params)
    (body : List Stmt) : Prop :=
  os.alloc nalloc nocFnSize = false ∨ os.alloc (nalloc + 1) (name.length + 1) = false ∨
    (compileBody os reg params.val body (nalloc + 2)).isOk = false ∨
    nocMaxFuncs ≤ reg.length ∧ ∀ g ∈ reg, g.name ≠ name

/-- The line defines no function, or is rejected before or at its first definition. -/
def RegistersNone (os : NocOs) (reg : Registry) : CComp → List Stmt → Prop
  | _, [] => True
  | c, .func _ name params body :: _ => DefinitionFails os reg c.nalloc name params body
  | c, s :: ss => ∀ c', compileStmt os reg c ss.isEmpty s = .ok c' → RegistersNone os reg c' ss

/-- The function table is as it was: the same objects in the same places, and none freed. -/
def FnTable.Same (t t' : FnTable) : Prop := t'.objs = t.objs ∧ t'.released = t.released

theorem FnTable.register_fails {f : NocFn} :
    t.register f = none ↔ nocMaxFuncs ≤ t.registry.length ∧ ∀ g ∈ t.registry, g.name ≠ f.name := by
  rw [FnTable.register_eq_none, registerObj_eq_none, TableFull, FnTable.registry, List.length_map]
  refine and_congr_right' ?_
  rw [List.forall_mem_map]

/-- A definition is rejected, or a new object is registered. -/
theorem compileFuncdeclIn_cases (os : NocOs) (t : FnTable) (nalloc : ℕ) (type : NType) (name : Name)
    (params : Params) (body : List Stmt) :
    (DefinitionFails os t.registry nalloc name params body ∧
      ∃ e, compileFuncdeclIn os t nalloc type name params body = .error e) ∨
    ¬ DefinitionFails os t.registry nalloc name params body ∧ ∃ sub t',
      compileBody os t.registry params.val body (nalloc + 2) = .ok sub ∧
      t.register (userFn type name params.val sub) = some t' ∧
      compileFuncdeclIn os t nalloc type name params body = .ok (t', sub.nalloc) := by
  unfold compileFuncdeclIn DefinitionFails
  split_ifs with hobj hname
  · exact Or.inl ⟨Or.inl (by simpa using hobj), _, rfl⟩
  · exact Or.inl ⟨Or.inr (Or.inl (by simpa using hname)), _, rfl⟩
  · rw [Bool.not_eq_true', Bool.not_eq_false] at hobj hname
    rw [hobj, hname]
    cases hbody : compileBody os t.registry params.val body (nalloc + 2) with
    | error e => exact Or.inl ⟨Or.inr (Or.inr (Or.inl rfl)), e, rfl⟩
    | ok sub =>
      cases hregister : t.register (userFn type name params.val sub) with
      | none =>
        have hfull := FnTable.register_fails.mp hregister
        refine Or.inl ⟨Or.inr (Or.inr (Or.inr hfull)), .tableFull, ?_⟩
        simp only [bind, Except.bind, hregister]
        rfl
      | some t' =>
        refine Or.inr ⟨?_, sub, t', rfl, hregister, ?_⟩
        · intro hfails
          have hfull := ((hfails.resolve_left nofun).resolve_left nofun).resolve_left nofun
          have hnone : t.register (userFn type name params.val sub) = none :=
            FnTable.register_fails.mpr hfull
          rw [hregister] at hnone
          cases hnone
        · simp only [bind, Except.bind, hregister]
          rfl

/-- A statement of a line: a definition or a statement, accepted or not. -/
theorem compileLineIn_cons (os : NocOs) (t : FnTable) (c : CComp) (s : Stmt) (ss : List Stmt) :
    (∃ type name params body, s = .func type name params body ∧
      compileLineIn os t c (s :: ss) =
        match compileFuncdeclIn os t c.nalloc type name params body with
        | .ok (t', nalloc) => compileLineIn os t' { c with nalloc := nalloc } ss
        | .error e => (t, .error e)) ∨
    (RegistersNone os t.registry c (s :: ss) =
        ∀ c', compileStmt os t.registry c ss.isEmpty s = .ok c' →
          RegistersNone os t.registry c' ss) ∧
      (compileLine os t.registry c (s :: ss) =
        match compileStmt os t.registry c ss.isEmpty s with
        | .ok c' => compileLine os t.registry c' ss
        | .error e => (t.registry, .error e)) ∧
      compileLineIn os t c (s :: ss) =
        match compileStmt os t.registry c ss.isEmpty s with
        | .ok c' => compileLineIn os t c' ss
        | .error e => (t, .error e) := by
  cases s with
  | func type name params body => exact Or.inl ⟨type, name, params, body, rfl, rfl⟩
  | _ => exact Or.inr ⟨rfl, rfl, rfl⟩

/-- The table behind a line is the one before, or holds an object that is newer than that. -/
theorem compileLineIn_newer (os : NocOs) (t : FnTable) (c : CComp) (ss : List Stmt) :
    t.fresh ≤ (compileLineIn os t c ss).1.fresh ∧ ((compileLineIn os t c ss).1 = t ∨
      ∃ o ∈ (compileLineIn os t c ss).1.objs, t.fresh ≤ o.id) := by
  induction ss generalizing t c with
  | nil => exact ⟨le_rfl, Or.inl rfl⟩
  | cons s ss ih =>
    rcases compileLineIn_cons os t c s ss with ⟨type, name, params, body, -, heq⟩ | ⟨-, -, heq⟩
    · rw [heq]
      rcases compileFuncdeclIn_cases os t c.nalloc type name params body with
        ⟨-, e, hfail⟩ | ⟨-, sub, t₁, -, hregister, hok⟩
      · rw [hfail]
        exact ⟨le_rfl, Or.inl rfl⟩
      · obtain ⟨r, hr, hobjs, -, hfresh⟩ := FnTable.register_eq_some hregister
        simp only [hok]
        obtain ⟨hle, hnew⟩ := ih t₁ { c with nalloc := sub.nalloc }
        refine ⟨by omega, Or.inr ?_⟩
        rcases hnew with hsame | ⟨o, ho, hid⟩
        · refine ⟨⟨t.fresh, userFn type name params.val sub⟩, ?_, le_rfl⟩
          rw [hsame, hobjs, registerObj_eq_some hr]
          exact mem_keyedPut _ _
        · exact ⟨o, ho, by omega⟩
    · rw [heq]
      cases compileStmt os t.registry c ss.isEmpty s with
      | error e => exact ⟨le_rfl, Or.inl rfl⟩
      | ok c' => exact ih t c'

/-- A line changes the table exactly when it registers a function. -/
theorem compileLineIn_eq_iff (os : NocOs) (t : FnTable) (c : CComp) (ss : List Stmt) :
    (compileLineIn os t c ss).1 = t ↔ RegistersNone os t.registry c ss := by
  induction ss generalizing c with
  | nil => exact ⟨fun _ ↦ trivial, fun _ ↦ rfl⟩
  | cons s ss ih =>
    rcases compileLineIn_cons os t c s ss with ⟨type, name, params, body, rfl, heq⟩ | ⟨hnone, -, heq⟩
    · rw [heq, RegistersNone]
      rcases compileFuncdeclIn_cases os t c.nalloc type name params body with
        ⟨hfails, e, hfail⟩ | ⟨hfails, sub, t₁, -, hregister, hok⟩
      · rw [hfail]
        exact ⟨fun _ ↦ hfails, fun _ ↦ rfl⟩
      · simp only [hok]
        refine ⟨fun hsame ↦ ?_, fun h ↦ absurd h hfails⟩
        obtain ⟨-, -, -, -, hfresh⟩ := FnTable.register_eq_some hregister
        have hle := (compileLineIn_newer os t₁ { c with nalloc := sub.nalloc } ss).1
        rw [hsame] at hle
        omega
    · rw [heq, hnone]
      cases hstmt : compileStmt os t.registry c ss.isEmpty s with
      | error e => exact ⟨fun _ _ h ↦ absurd h nofun, fun _ ↦ rfl⟩
      | ok c' =>
        refine (ih c').trans ⟨fun h c'' heq ↦ ?_, fun h ↦ h c' rfl⟩
        obtain rfl := Except.ok.inj heq
        exact h

theorem compileLineIn_same_iff (os : NocOs) (t : FnTable) (c : CComp) (ss : List Stmt) :
    t.Same (compileLineIn os t c ss).1 ↔ RegistersNone os t.registry c ss := by
  rw [← compileLineIn_eq_iff]
  constructor
  · rintro ⟨hobjs, -⟩
    refine (compileLineIn_newer os t c ss).2.resolve_right ?_
    rintro ⟨o, ho, hid⟩
    rw [hobjs] at ho
    exact absurd (t.objs_lt o ho) (Nat.not_lt_of_le hid)
  · intro heq
    rw [heq]
    exact ⟨rfl, rfl⟩

theorem nocCompileIn_fst (os : NocOs) (t : FnTable) (stmts : List Stmt) :
    (nocCompileIn os t stmts).1 = (compileLineIn os t (CComp.start [] false 0) stmts).1 := by
  unfold nocCompileIn
  split
  · rename_i t₁ c₁ hline
    rw [hline]
    split <;> rfl
  · rename_i t₁ e hline
    rw [hline]

/-- Checking a line, and compiling a line that is then rejected, leaves the function table as it was
exactly when the line registers nothing: it cannot be read, defines no function, or is rejected
before or at its first definition. -/
theorem check_keeps_table_iff (os : NocOs) (t : FnTable) (source : Option (List Stmt)) :
    (t.Same (nocCheckSyntax os t source).1 ∧
      ∀ stmts e, source = some stmts → (nocCompileIn os t stmts).2 = .error e →
        t.Same (nocCompileIn os t stmts).1) ↔
      ∀ stmts, source = some stmts →
        RegistersNone os t.registry (CComp.start [] false 0) stmts := by
  have hcompile : ∀ stmts, t.Same (nocCompileIn os t stmts).1 ↔
      RegistersNone os t.registry (CComp.start [] false 0) stmts := by
    intro stmts
    rw [nocCompileIn_fst]
    exact compileLineIn_same_iff os t _ stmts
  constructor
  · rintro ⟨hcheck, -⟩ stmts rfl
    exact (hcompile stmts).mp hcheck
  · intro hnone
    refine ⟨?_, fun stmts _ hsource _ ↦ (hcompile stmts).mpr (hnone stmts hsource)⟩
    cases source with
    | none => exact ⟨rfl, rfl⟩
    | some stmts => exact (hcompile stmts).mpr (hnone stmts rfl)

/-- `I64 F() { return 1; }` -/
def one : Stmt := .func .i64 (cstr "F") ⟨[], Nat.zero_le _⟩ [.ret (some (.lit 1))]

/-- A line is only checked, and another is rejected for its second statement: the function each of
them defines stays in the table. -/
theorem check_changes_table :
    let t := FnTable.init ampleOs true
    ((nocCheckSyntax ampleOs t (some [one])).2 = true ∧
      ¬ t.Same (nocCheckSyntax ampleOs t (some [one])).1) ∧
    (nocCompileIn ampleOs t [one, .expr (.var (cstr "y"))]).2.isOk = false ∧
      ¬ t.Same (nocCompileIn ampleOs t [one, .expr (.var (cstr "y"))]).1 := by
  refine ⟨⟨by decide +kernel, fun hsame ↦ ?_⟩, by decide +kernel, fun hsame ↦ ?_⟩
  · exact absurd (congrArg List.length hsame.1) (by decide +kernel)
  · exact absurd (congrArg List.length hsame.1) (by decide +kernel)

/-! ### Values of the objects -/

theorem compileFuncdeclIn_registry (os : NocOs) (t : FnTable) (nalloc : ℕ) (type : NType)
    (name : Name) (params : Params) (body : List Stmt) :
    (compileFuncdeclIn os t nalloc type name params body).map (fun r ↦ (r.1.registry, r.2)) =
      compileFuncdecl os t.registry nalloc type name params body := by
  unfold compileFuncdeclIn compileFuncdecl
  split_ifs with hobj hname
  · rfl
  · rfl
  · cases compileBody os t.registry params.val body (nalloc + 2) with
    | error e => rfl
    | ok sub =>
      simp only [bind, Except.bind, ← t.registry_register]
      cases t.register (userFn type name params.val sub) <;> rfl

/-- The compiler over objects is the compiler over their values. -/
theorem compileLineIn_registry (os : NocOs) (t : FnTable) (c : CComp) (ss : List Stmt) :
    ((compileLineIn os t c ss).1.registry, (compileLineIn os t c ss).2) =
      compileLine os t.registry c ss := by
  induction ss generalizing t c with
  | nil => rfl
  | cons s ss ih =>
    rcases compileLineIn_cons os t c s ss with ⟨type, name, params, body, rfl, heq⟩ | ⟨-, hline, heq⟩
    · rw [heq, compileLine, ← compileFuncdeclIn_registry]
      cases compileFuncdeclIn os t c.nalloc type name params body with
      | error e => rfl
      | ok r => exact ih r.1 _
    · rw [heq, hline]
      cases compileStmt os t.registry c ss.isEmpty s with
      | error e => rfl
      | ok c' => exact ih t c'

theorem nocCompileIn_registry (os : NocOs) (t : FnTable) (stmts : List Stmt) :
    ((nocCompileIn os t stmts).1.registry, (nocCompileIn os t stmts).2) =
      nocCompile os t.registry stmts := by
  unfold nocCompileIn nocCompile
  rw [← compileLineIn_registry]
  obtain ⟨t', r⟩ := compileLineIn os t (CComp.start [] false 0) stmts
  cases r with
  | error e => rfl
  | ok c =>
    simp only
    cases emit1 os c opHalt <;> rfl

end NoOsKernel.Noc
