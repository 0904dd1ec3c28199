import NoOsKernel.Noc.TreeRun

/-!
# The code of what is left to do

`WorkAt` says that the code at a position does the things of a list, one after the other. There may
be jumps before each of them. Nothing is lost when the first thing is replaced by its parts
(`WorkAt.parts`), and doing so a few times ends where a single instruction is next
(`WorkAt.prepares`): a loop without condition and with an empty body has a jump back to itself.
-/

set_option autoImplicit false
set_option relaxedAutoImplicit false

namespace NoOsKernel.Noc

open Lib

/-! ### Headers -/

section Headers

variable (reg : Registry) (f : NocFn) (name : Name) (syms : List (Name × NType))

theorem nocLookup_headers : nocLookup (headers reg) name = (nocLookup reg name).map NocFn.header := by
  rw [nocLookup, headers, List.find?_map]
  rfl

theorem stmtExpr_headers (e : Expr) : stmtExpr (headers reg) syms e = stmtExpr reg syms e := by
  cases e with
  | var x => rw [stmtExpr, stmtExpr, nocLookup_headers, Option.isSome_map]
  | _ => rfl

variable {reg} {f}

/-- The defaults that `compile_call` pushes. -/
theorem defaultsOf_headers {nargs : ℕ} {defaults : List U64} (hf : nocLookup reg name = some f)
    (h : callDefaults f name nargs = .ok defaults) :
    defaultsOf (headers reg) name nargs = defaults := by
  have hheader : callDefaults f.header name nargs = callDefaults f name nargs := rfl
  rw [defaultsOf, nocLookup_headers, hf]
  simp only [Option.map_some, hheader, h]
  rfl

end Headers

/-! ### Code -/

/-- The code of something stands from `p` to `q`; what ends in a jump or a return has `WorkAt`. -/
def TodoAt (τ : Image) : Todo → ℕ → ℕ → Prop
  | .expr known e, p, q => ∃ reg, headers reg = known ∧ ExprAt reg τ e p q
  | .stmt known syms s, p, q => ∃ reg, headers reg = known ∧ StmtAt reg τ syms s p q
  | .loop known syms c post body, p, q => ∃ reg, headers reg = known ∧ ∃ m j k,
    CondAt reg τ c p q m ∧ StmtAt reg τ syms body m j ∧ PostAt reg τ post j k ∧
      InstrAt τ.code k (.jmp p) q
  | .bin op, p, q => InstrAt τ.code p (.bin op) q
  | .un op, p, q => InstrAt τ.code p op.instr q
  | .dup, p, q => InstrAt τ.code p .dup q
  | .drop, p, q => InstrAt τ.code p .pop q
  | .store x, p, q => ∃ k, resolveVar τ.syms x = some k ∧ InstrAt τ.code p (.store k) q
  | .call f count, p, q => ∃ si, τ.strings[si]? = some f ∧ InstrAt τ.code p (.call si count) q
  | .branch _ _, _, _ => False
  | .ret, _, _ => False

/-- The code at a position does these things and then ends the line, or returns on the way. -/
inductive WorkAt (τ : Image) : List Todo → ℕ → Prop
  | halt {p q : ℕ} : InstrAt τ.code p .halt q → WorkAt τ [] p
  | ret {more : List Todo} {p q : ℕ} : InstrAt τ.code p .ret q → WorkAt τ (.ret :: more) p
  | jmp {ts : List Todo} {p t q : ℕ} : InstrAt τ.code p (.jmp t) q → WorkAt τ ts t → WorkAt τ ts p
  | jmpf {yes no more : List Todo} {p t q : ℕ} : InstrAt τ.code p (.jmpf t) q →
    WorkAt τ (yes ++ more) q → WorkAt τ (no ++ more) t → WorkAt τ (.branch yes no :: more) p
  | jmpt {yes no more : List Todo} {p t q : ℕ} : InstrAt τ.code p (.jmpt t) q →
    WorkAt τ (yes ++ more) t → WorkAt τ (no ++ more) q → WorkAt τ (.branch yes no :: more) p
  | next {t : Todo} {more : List Todo} {p q : ℕ} : TodoAt τ t p q → WorkAt τ more q →
    WorkAt τ (t :: more) p

variable {reg : Registry} {τ : Image} {ts more : List Todo} {p q m : ℕ}
  {syms : List (Name × NType)}

theorem WorkAt.expr {e : Expr} (h : ExprAt reg τ e p q) (hmore : WorkAt τ more q) :
    WorkAt τ (.expr (headers reg) e :: more) p :=
  .next ⟨reg, rfl, h⟩ hmore

theorem WorkAt.stmt {s : Stmt} (h : StmtAt reg τ syms s p q) (hmore : WorkAt τ more q) :
    WorkAt τ (.stmt (headers reg) syms s :: more) p :=
  .next ⟨reg, rfl, h⟩ hmore

theorem WorkAt.args {es : List Expr} (h : ArgsAt reg τ es p q) (hmore : WorkAt τ more q) :
    WorkAt τ (es.map (.expr (headers reg)) ++ more) p := by
  induction es generalizing p with
  | nil =>
    obtain rfl : p = q := h
    exact hmore
  | cons e es ih =>
    obtain ⟨m, he, hes⟩ := h
    exact .expr he (ih hes)

theorem WorkAt.pushes {vs : List U64} (h : SeqAt τ.code p (vs.map .push) q)
    (hmore : WorkAt τ more q) :
    WorkAt τ (vs.map (fun v ↦ .expr (headers reg) (.lit v)) ++ more) p := by
  induction vs generalizing p with
  | nil =>
    obtain rfl : p = q := h
    exact hmore
  | cons v vs ih =>
    obtain ⟨m, hi, his⟩ := h
    exact .next ⟨reg, rfl, hi⟩ (ih his)

/-- The value on top goes to its variable and stays. -/
theorem WorkAt.dupStore {x : Name} {s : ℕ} (hs : resolveVar τ.syms x = some s)
    (h : SeqAt τ.code p [.dup, .store s] q) (hmore : WorkAt τ more q) :
    WorkAt τ (.dup :: .store x :: more) p := by
  obtain ⟨m₁, hdup, m₂, hstore, rfl⟩ := h
  exact .next hdup (.next ⟨s, hs, hstore⟩ hmore)

/-- What the short-circuit operators have behind their operands. -/
theorem WorkAt.logic {isAnd : Bool} {b : Expr} {j₁ j₂ l j₃ d : ℕ}
    (h₁ : InstrAt τ.code j₁ (logicJump isAnd l) m) (hb : ExprAt reg τ b m j₂)
    (h₂ : InstrAt τ.code j₂ (logicJump isAnd l) l)
    (h₃ : InstrAt τ.code l (.push (if isAnd then 0 else 1)) j₃) (h₄ : InstrAt τ.code j₃ (.jmp d) d)
    (h₅ : InstrAt τ.code d (.push (if isAnd then 1 else 0)) q) (hmore : WorkAt τ more q) :
    WorkAt τ (logicBranch isAnd [.expr (headers reg) b,
      .branch (logicTail (headers reg) isAnd) (logicTail (headers reg) isAnd)]
        (logicTail (headers reg) isAnd) :: more) j₁ := by
  have htail : WorkAt τ (logicTail (headers reg) isAnd ++ more) l :=
    .next ⟨reg, rfl, h₃⟩ (.jmp h₄ (.next ⟨reg, rfl, h₅⟩ hmore))
  cases isAnd
  · exact .jmpt h₁ htail (.expr hb (.jmpt h₂ htail htail))
  · exact .jmpf h₁ (.expr hb (.jmpf h₂ htail htail)) htail

/-- The code of an expression does its parts. -/
theorem ExprAt.parts {e : Expr} (h : ExprAt reg τ e p q) (hmore : WorkAt τ more q)
    (hts : exprParts (headers reg) e = some ts) : WorkAt τ (ts ++ more) p := by
  cases e with
  | lit v => cases hts
  | str s => cases hts
  | var x => cases hts
  | call f args =>
    obtain ⟨m, hargs, callee, defaults, m', si, hcallee, hdefaults, hseq, hsi, hi⟩ := h
    obtain rfl := Option.some.inj hts
    rw [defaultsOf_headers f hcallee hdefaults, List.append_assoc, List.append_assoc]
    exact .args hargs (.pushes hseq (.next ⟨si, hsi, hi⟩ hmore))
  | logic isAnd a b =>
    obtain ⟨j₁, m, j₂, l, j₃, d, ha, h₁, hb, h₂, h₃, h₄, h₅⟩ := h
    obtain rfl := Option.some.inj hts
    exact .expr ha (.logic h₁ hb h₂ h₃ h₄ h₅ hmore)
  | bin op a b =>
    obtain ⟨m, m', ha, hb, hi⟩ := h
    obtain rfl := Option.some.inj hts
    exact .expr ha (.expr hb (.next hi hmore))
  | un op a =>
    obtain ⟨m, ha, hi⟩ := h
    obtain rfl := Option.some.inj hts
    exact .expr ha (.next hi hmore)
  | preinc x plus =>
    obtain ⟨s, hs, m₁, h₁, m₂, h₂, m₃, h₃, m₄, h₄, hseq⟩ := h
    obtain rfl := Option.some.inj hts
    exact .next ⟨reg, rfl, s, hs, h₁⟩ (.next ⟨reg, rfl, s, hs, h₂⟩
      (.next ⟨reg, rfl, h₃⟩ (.next h₄ (.dupStore hs hseq hmore))))
  | postinc x plus =>
    obtain ⟨s, hs, m₁, h₁, m₂, h₂, m₃, h₃, m₄, h₄, m₅, h₅, rfl⟩ := h
    obtain rfl := Option.some.inj hts
    exact .next ⟨reg, rfl, s, hs, h₁⟩ (.next h₂
      (.next ⟨reg, rfl, h₃⟩ (.next h₄ (.next ⟨s, hs, h₅⟩ hmore))))
  | assign op x a =>
    obtain ⟨s, hs, h⟩ := h
    rw [exprParts] at hts
    cases hop : op.binOp with
    | none =>
      simp only [hop] at h hts
      obtain ⟨m, ha, hseq⟩ := h
      obtain rfl := Option.some.inj hts
      exact .expr ha (.dupStore hs hseq hmore)
    | some bin =>
      simp only [hop] at h hts
      obtain ⟨m, m', hload, ha, m₁, hbin, hseq⟩ := h
      obtain rfl := Option.some.inj hts
      exact .next ⟨reg, rfl, s, hs, hload⟩ (.expr ha (.next hbin (.dupStore hs hseq hmore)))

theorem WorkAt.drop {e : Expr} (h : DropAt reg τ e p q) (hmore : WorkAt τ more q) :
    WorkAt τ (dropParts (headers reg) e ++ more) p := by
  obtain ⟨m, he, hi⟩ := h
  exact .expr he (.next hi hmore)

theorem WorkAt.decl {x : Name} {init : Option Expr} (h : DeclAt reg τ x init p q)
    (hmore : WorkAt τ more q) : WorkAt τ (declParts (headers reg) x init ++ more) p := by
  obtain ⟨s, hs, h⟩ := h
  cases init with
  | none =>
    obtain rfl : p = q := h
    exact hmore
  | some e =>
    obtain ⟨m, he, hi⟩ := h
    exact .expr he (.next ⟨s, hs, hi⟩ hmore)

theorem WorkAt.init {init : ForInit} (h : InitAt reg τ init p q) (hmore : WorkAt τ more q) :
    WorkAt τ (initParts (headers reg) init ++ more) p := by
  cases init with
  | none =>
    obtain rfl : p = q := h
    exact hmore
  | decl x type e => exact .decl h hmore
  | expr e => exact .drop h hmore

theorem WorkAt.post {post : Option Expr} (h : PostAt reg τ post p q) (hmore : WorkAt τ more q) :
    WorkAt τ (postParts (headers reg) post ++ more) p := by
  cases post with
  | none =>
    obtain rfl : p = q := h
    exact hmore
  | some e => exact .drop h hmore

theorem WorkAt.block {body : List Stmt} (h : BlockAt reg τ syms body p q) (hmore : WorkAt τ more q) :
    WorkAt τ (blockParts (headers reg) syms body ++ more) p := by
  induction body generalizing syms p with
  | nil =>
    obtain rfl : p = q := h
    exact hmore
  | cons s ss ih =>
    obtain ⟨m, hs, hss⟩ := h
    exact .stmt hs (ih hss)

/-- A condition and what is done if it holds. -/
theorem WorkAt.cond {c : Expr} {stop : ℕ} {yes no : List Todo}
    (h : CondAt reg τ (some c) p stop q) (hyes : WorkAt τ (yes ++ more) q)
    (hno : WorkAt τ (no ++ more) stop) :
    WorkAt τ (.expr (headers reg) c :: .branch yes no :: more) p := by
  obtain ⟨j, hc, hi⟩ := h
  exact .expr hc (.jmpf hi hyes hno)

/-- The code of a statement does its parts. -/
theorem StmtAt.parts {s : Stmt} (h : StmtAt reg τ syms s p q) (hmore : WorkAt τ more q) :
    WorkAt τ (stmtParts (headers reg) syms s ++ more) p := by
  cases s with
  | expr e =>
    rw [stmtParts, stmtExpr_headers]
    exact .drop h hmore
  | decl x type init => exact .decl h hmore
  | block body => exact .block h hmore
  | ifThen c t =>
    obtain ⟨m, hcond, ht⟩ := h
    exact .cond hcond (.stmt ht hmore) hmore
  | ifElse c t e =>
    obtain ⟨m, j, l, hcond, ht, hj, he⟩ := h
    exact .cond hcond (.stmt ht (.jmp hj hmore)) (.stmt he hmore)
  | «while» c body =>
    obtain ⟨m, j, hcond, hbody, hj⟩ := h
    exact .next ⟨reg, rfl, m, j, j, hcond, hbody, rfl, hj⟩ hmore
  | «for» init c post body =>
    obtain ⟨top, m, j, k, hinit, hcond, hbody, hpost, hj⟩ := h
    rw [stmtParts, List.append_assoc]
    exact .init hinit (.next ⟨reg, rfl, m, j, k, hcond, hbody, hpost, hj⟩ hmore)
  | ret e =>
    obtain ⟨-, m, he, hi⟩ := h
    cases e with
    | none => exact .next ⟨reg, rfl, he⟩ (.ret hi)
    | some e => exact .expr he (.ret hi)
  | func type name params body => exact absurd h id

/-- A round of a loop and the jump back. -/
theorem WorkAt.loop {c post : Option Expr} {body : Stmt} {j k : ℕ}
    (hcond : CondAt reg τ c p q m) (hbody : StmtAt reg τ syms body m j)
    (hpost : PostAt reg τ post j k) (hj : InstrAt τ.code k (.jmp p) q) (hmore : WorkAt τ more q) :
    WorkAt τ (loopParts (headers reg) syms c post body ++ more) p := by
  have hagain : WorkAt τ (.loop (headers reg) syms c post body :: more) k :=
    .jmp hj (.next ⟨reg, rfl, m, j, k, hcond, hbody, hpost, hj⟩ hmore)
  have hround : WorkAt τ (.stmt (headers reg) syms body :: (postParts (headers reg) post ++
      [.loop (headers reg) syms c post body]) ++ more) m := by
    rw [List.cons_append, List.append_assoc]
    exact .stmt hbody (.post hpost hagain)
  cases c with
  | none =>
    obtain rfl : p = m := hcond
    exact hround
  | some e => exact .cond hcond hround hmore

/-- The code of something does its parts. -/
theorem TodoAt.parts {t : Todo} (h : TodoAt τ t p q) (hmore : WorkAt τ more q)
    (hts : t.parts = some ts) : WorkAt τ (ts ++ more) p := by
  cases t with
  | expr known e =>
    obtain ⟨reg, rfl, he⟩ := h
    exact he.parts hmore hts
  | stmt known syms s =>
    obtain ⟨reg, rfl, hs⟩ := h
    obtain rfl := Option.some.inj hts
    exact hs.parts hmore
  | loop known syms c post body =>
    obtain ⟨reg, rfl, m, j, k, hcond, hbody, hpost, hj⟩ := h
    obtain rfl := Option.some.inj hts
    exact .loop hcond hbody hpost hj hmore
  | _ => cases hts

/-- The first thing may be replaced by its parts. -/
theorem WorkAt.parts {t : Todo} (h : WorkAt τ (t :: more) p) (hts : t.parts = some ts) :
    WorkAt τ (ts ++ more) p := by
  generalize hall : t :: more = all at h
  induction h with
  | halt _ => cases hall
  | ret _ =>
    obtain ⟨rfl, rfl⟩ := List.cons.inj hall
    cases hts
  | jmp hi _ ih => exact .jmp hi (ih hall)
  | jmpf _ _ _ _ _ =>
    obtain ⟨rfl, rfl⟩ := List.cons.inj hall
    cases hts
  | jmpt _ _ _ _ _ =>
    obtain ⟨rfl, rfl⟩ := List.cons.inj hall
    cases hts
  | next ht hmore _ =>
    obtain ⟨rfl, rfl⟩ := List.cons.inj hall
    exact ht.parts hmore hts

/-! ### Up to the next instruction -/

/-- The first thing is replaced by its parts, some times. -/
inductive Expands : List Todo → List Todo → Prop
  | refl {ts : List Todo} : Expands ts ts
  | parts {t : Todo} {ts more ts' : List Todo} : t.parts = some ts → Expands (ts ++ more) ts' →
    Expands (t :: more) ts'

/-- The first thing has no parts, or the next instruction is a jump before it. -/
def Ready (τ : Image) (ts : List Todo) (p : ℕ) : Prop :=
  (WorkAt τ ts p ∧ ts.head?.bind Todo.parts = none) ∨
    ∃ t q, InstrAt τ.code p (.jmp t) q ∧ WorkAt τ ts t

/-- Replacing the first thing by its parts ends. -/
def Prepares (τ : Image) (ts : List Todo) (p : ℕ) : Prop := ∃ ts', Expands ts ts' ∧ Ready τ ts' p

theorem WorkAt.ready {t : Todo} (h : WorkAt τ (t :: more) p) (ht : t.parts = none) :
    Prepares τ (t :: more) p :=
  ⟨_, .refl, Or.inl ⟨h, ht⟩⟩

theorem Prepares.of_parts {t : Todo} (ht : t.parts = some ts) (h : Prepares τ (ts ++ more) p) :
    Prepares τ (t :: more) p := by
  obtain ⟨ts', hexpands, hready⟩ := h
  exact ⟨ts', .parts ht hexpands, hready⟩

theorem Expr.prepares {known : Registry} : ∀ (e : Expr) {more : List Todo} {p : ℕ},
    WorkAt τ (.expr known e :: more) p → Prepares τ (.expr known e :: more) p
  | .lit _, _, _, h => h.ready rfl
  | .str _, _, _, h => h.ready rfl
  | .var _, _, _, h => h.ready rfl
  | .call f [], more, p, h => by
    refine .of_parts rfl ?_
    have hparts := h.parts rfl
    cases hdefaults : defaultsOf known f [].length with
    | nil =>
      rw [hdefaults] at hparts
      exact hparts.ready rfl
    | cons v vs =>
      rw [hdefaults] at hparts
      exact hparts.ready rfl
  | .call _ (e :: _), _, _, h => .of_parts rfl (e.prepares (h.parts rfl))
  | .logic _ a _, _, _, h => .of_parts rfl (a.prepares (h.parts rfl))
  | .bin _ a _, _, _, h => .of_parts rfl (a.prepares (h.parts rfl))
  | .un _ a, _, _, h => .of_parts rfl (a.prepares (h.parts rfl))
  | .preinc _ _, _, _, h => .of_parts rfl ((h.parts rfl).ready rfl)
  | .postinc _ _, _, _, h => .of_parts rfl ((h.parts rfl).ready rfl)
  | .assign .assign _ a, _, _, h => .of_parts rfl (a.prepares (h.parts rfl))
  | .assign .add _ _, _, _, h => .of_parts rfl ((h.parts rfl).ready rfl)
  | .assign .sub _ _, _, _, h => .of_parts rfl ((h.parts rfl).ready rfl)
  | .assign .mul _ _, _, _, h => .of_parts rfl ((h.parts rfl).ready rfl)
  | .assign .div _ _, _, _, h => .of_parts rfl ((h.parts rfl).ready rfl)

/-- Parts that begin with an expression. -/
theorem WorkAt.prepares_of_expr {t : Todo} {known : Registry} {e : Expr}
    (h : WorkAt τ (t :: more) p) (ht : t.parts = some (.expr known e :: ts)) :
    Prepares τ (t :: more) p :=
  .of_parts ht (e.prepares (h.parts ht))

/-- A loop without condition may have no code but its jump. -/
theorem WorkAt.prepares_of_loop {c post : Option Expr} {body : Stmt} {j k : ℕ}
    (hcond : CondAt reg τ c p q m) (hbody : StmtAt reg τ syms body m j)
    (hpost : PostAt reg τ post j k) (hj : InstrAt τ.code k (.jmp p) q) (hmore : WorkAt τ more q)
    (hstmt : ∀ more', WorkAt τ more' j → (m = j → Prepares τ more' j) →
      Prepares τ (.stmt (headers reg) syms body :: more') m) :
    Prepares τ (.loop (headers reg) syms c post body :: more) p := by
  have hloop : WorkAt τ (.loop (headers reg) syms c post body :: more) p :=
    .next ⟨reg, rfl, m, j, k, hcond, hbody, hpost, hj⟩ hmore
  cases c with
  | some e => exact hloop.prepares_of_expr rfl
  | none =>
    obtain rfl : p = m := hcond
    have hrest : WorkAt τ (postParts (headers reg) post ++
        (.loop (headers reg) syms none post body :: more)) j := .post hpost (.jmp hj hloop)
    refine .of_parts rfl ?_
    rw [loopParts, List.cons_append, List.append_assoc]
    refine hstmt _ hrest fun _ ↦ ?_
    cases post with
    | some e => exact e.prepares hrest
    | none =>
      obtain rfl : j = k := hpost
      exact ⟨_, .refl, Or.inr ⟨p, q, hj, hloop⟩⟩

mutual

/-- What follows a statement must be prepared only where the statement has no code. -/
theorem StmtAt.prepares : ∀ (s : Stmt) {syms : List (Name × NType)} {p q : ℕ} {more : List Todo},
    StmtAt reg τ syms s p q → WorkAt τ more q → (p = q → Prepares τ more q) →
    Prepares τ (.stmt (headers reg) syms s :: more) p
  | .expr _, _, _, _, _, h, hmore, _ => (WorkAt.stmt h hmore).prepares_of_expr rfl
  | .decl _ _ none, _, _, _, _, ⟨_, _, h⟩, _, hempty => .of_parts rfl (h ▸ hempty h)
  | .decl _ _ (some _), _, _, _, _, h, hmore, _ => (WorkAt.stmt h hmore).prepares_of_expr rfl
  | .block body, _, _, _, _, h, hmore, hempty =>
    .of_parts rfl (BlockAt.prepares body h hmore hempty)
  | .ifThen _ _, _, _, _, _, h, hmore, _ => (WorkAt.stmt h hmore).prepares_of_expr rfl
  | .ifElse _ _ _, _, _, _, _, h, hmore, _ => (WorkAt.stmt h hmore).prepares_of_expr rfl
  | .while _ _, _, _, _, _, h, hmore, _ =>
    .of_parts rfl (((WorkAt.stmt h hmore).parts rfl).prepares_of_expr rfl)
  | .for init c post body, syms, p, q, more, h, hmore, _ => by
    obtain ⟨top, m, j, k, hinit, hcond, hbody, hpost, hj⟩ := h
    have hloop : Prepares τ (.loop (headers reg) (syms ++ init.decls) c post body :: more) top :=
      WorkAt.prepares_of_loop hcond hbody hpost hj hmore fun _ ↦ StmtAt.prepares body hbody
    have hwork : WorkAt τ (.stmt (headers reg) syms (.for init c post body) :: more) p :=
      .stmt ⟨top, m, j, k, hinit, hcond, hbody, hpost, hj⟩ hmore
    match init with
    | .none =>
      obtain rfl : p = top := hinit
      exact .of_parts rfl hloop
    | .decl _ _ none =>
      obtain ⟨_, _, rfl⟩ := hinit
      exact .of_parts rfl hloop
    | .decl _ _ (some _) => exact hwork.prepares_of_expr rfl
    | .expr _ => exact hwork.prepares_of_expr rfl
  | .ret _, _, _, _, _, h, hmore, _ => (WorkAt.stmt h hmore).prepares_of_expr rfl
  | .func _ _ _ _, _, _, _, _, h, _, _ => absurd h id

theorem BlockAt.prepares : ∀ (ss : List Stmt) {syms : List (Name × NType)} {p q : ℕ}
    {more : List Todo}, BlockAt reg τ syms ss p q → WorkAt τ more q → (p = q → Prepares τ more q) →
    Prepares τ (blockParts (headers reg) syms ss ++ more) p
  | [], _, _, _, _, h, _, hempty => h ▸ hempty h
  | s :: ss, _, _, _, _, ⟨_, hs, hss⟩, hmore, hempty =>
    StmtAt.prepares s hs (.block hss hmore) fun hpm ↦
      BlockAt.prepares ss hss hmore fun hmq ↦ hempty (hpm.trans hmq)

end

/-- Replacing the first thing by its parts ends, whatever is to be done. -/
theorem WorkAt.prepares (h : WorkAt τ ts p) : Prepares τ ts p := by
  induction h with
  | halt hi => exact ⟨_, .refl, Or.inl ⟨.halt hi, rfl⟩⟩
  | ret hi => exact (WorkAt.ret hi).ready rfl
  | jmp hi hwork _ => exact ⟨_, .refl, Or.inr ⟨_, _, hi, hwork⟩⟩
  | jmpf hi hyes hno _ _ => exact (WorkAt.jmpf hi hyes hno).ready rfl
  | jmpt hi hyes hno _ _ => exact (WorkAt.jmpt hi hyes hno).ready rfl
  | @next t more p q ht hmore ih =>
    have hwork := WorkAt.next ht hmore
    cases t with
    | expr known e => exact e.prepares hwork
    | stmt known syms s =>
      obtain ⟨reg, rfl, hs⟩ := ht
      exact StmtAt.prepares s hs hmore fun _ ↦ ih
    | loop known syms c post body =>
      obtain ⟨reg, rfl, m, j, k, hcond, hbody, hpost, hj⟩ := ht
      exact WorkAt.prepares_of_loop hcond hbody hpost hj hmore fun _ ↦ StmtAt.prepares body hbody
    | _ => exact hwork.ready rfl

/-! ### Compiled code -/

variable {os : NocOs} {c c' : CComp}

/-- The code of a declared function does what its body says. -/
theorem compileBody_work {params : Params} {body : List Stmt} {nalloc : ℕ} {sub : CComp}
    (h : compileBody os reg params.val body nalloc = .ok sub) :
    sub.syms = bodySyms params body ∧ WorkAt sub.image [.stmt (headers reg) (paramSyms params)
      (.block body), .expr (headers reg) (.lit 0), .ret] 0 := by
  obtain ⟨c₁, h₁, h⟩ := exists_of_bind_eq_ok h
  obtain ⟨c₂, h₂, h₃⟩ := exists_of_bind_eq_ok h
  have hlays := (compileBlock_lays body h₁).andThen
    ((emit_instr_lays (.push 0) trivial h₂).andThen (emit_instr_lays .ret trivial h₃))
  have hparams : (paramSyms params).length ≤ nocMaxLocals := by
    have hle : params.val.length ≤ 16 := params.property
    rw [paramSyms, List.length_map, nocMaxLocals]
    omega
  obtain ⟨hblock, hpush, hret⟩ := hlays.at_image (bounded_start hparams)
  refine ⟨?_, .stmt hblock (.next ⟨reg, rfl, hpush⟩ (.ret hret))⟩
  rw [hlays.1.syms, List.append_nil, List.append_nil]
  rfl

end NoOsKernel.Noc
