import Mathlib.Data.List.Basic
import NoOsKernel.Noc.Depth

/-!
# Call sites

`compile_call` checks and completes a call against the function that its name finds at that time;
`OP_CALL` looks the name up again. A `CallSite` is what the first of the two knows: the written
arguments, where the code of each ends, the function found and the defaults that go behind the
arguments.

The operands of compiled code are followed by the position at which each was last on top of the
stack. At every `OP_CALL` the topmost ones are the defaults and the values of the written arguments,
in order, except that an argument with a `&&`, `||`, `++x` or `--x` in it leaves a second operand
below its value: unless it is the first argument, this operand comes between.
-/

set_option autoImplicit false
set_option relaxedAutoImplicit false

namespace NoOsKernel.Noc

open Lib

/-! ### Sites -/

mutual

/-- The expression has no `&&`, `||`, `++x` or `--x` in it, so its code leaves one operand. -/
def Expr.tidy : Expr → Bool
  | .call _ args => tidyArgs args
  | .bin _ a b => a.tidy && b.tidy
  | .logic _ _ _ => false
  | .un _ a => a.tidy
  | .preinc _ _ => false
  | .assign _ _ a => a.tidy
  | _ => true

/-- All these expressions are tidy. -/
def tidyArgs : List Expr → Bool
  | [] => true
  | e :: es => e.tidy && tidyArgs es

end

/-- What is known of a call when it has been compiled. -/
structure CallSite where
  name : Name
  args : List Expr
  ends : List ℕ
  found : NocFn
  defaults : List U64

/-- No argument behind the first leaves an operand too many. -/
def CallSite.Tidy (site : CallSite) : Prop := tidyArgs site.args.tail = true

/-- The code of the arguments stands from `p` to `q`, and that of each ends at its position. -/
def ArgsEnd (reg : Registry) (τ : Image) : List Expr → List ℕ → ℕ → ℕ → Prop
  | [], [], p, q => p = q
  | e :: es, m :: ms, p, q => ExprAt reg τ e p m ∧ ArgsEnd reg τ es ms m q
  | _, _, _, _ => False

/-- The `OP_CALL` of the site stands at `pos`, behind the code of its arguments, which begins at `p`,
and its defaults, all compiled with the table `reg`. -/
def CallSite.StandsAt (reg : Registry) (τ : Image) (p pos : ℕ) (site : CallSite) : Prop :=
  ∃ m si q, ArgsEnd reg τ site.args site.ends p m ∧
    nocLookup reg site.name = some site.found ∧
    callDefaults site.found site.name site.args.length = .ok site.defaults ∧
    SeqAt τ.code m (site.defaults.map .push) pos ∧ τ.strings[si]? = some site.name ∧
    InstrAt τ.code pos (.call si (site.args.length + site.defaults.length)) q

section SitesOfTrees

variable (reg : Registry) (τ : Image) (pos : ℕ) (site : CallSite)

mutual

/-- The site is a call in the expression whose code begins at `p`. -/
def ExprSite : Expr → ℕ → Prop
  | .call f args, p =>
    (site.name = f ∧ site.args = args ∧ site.StandsAt reg τ p pos) ∨ ArgsSite args p
  | .bin _ a b, p => ExprSite a p ∨ ∃ m, ExprAt reg τ a p m ∧ ExprSite b m
  | .logic isAnd a b, p => ExprSite a p ∨
    ∃ j l m, ExprAt reg τ a p j ∧ InstrAt τ.code j (logicJump isAnd l) m ∧ ExprSite b m
  | .un _ a, p => ExprSite a p
  | .assign op _ a, p =>
    match op.binOp with
    | none => ExprSite a p
    | some _ => ∃ s m, InstrAt τ.code p (.load s) m ∧ ExprSite a m
  | _, _ => False

/-- The site is a call in one of the expressions whose code begins at `p`. -/
def ArgsSite : List Expr → ℕ → Prop
  | [], _ => False
  | e :: es, p => ExprSite e p ∨ ∃ m, ExprAt reg τ e p m ∧ ArgsSite es m

end

/-- The site is a call in an expression that may be left out. -/
def OptionSite : Option Expr → ℕ → Prop
  | none, _ => False
  | some e, p => ExprSite reg τ pos site e p

/-- The site is a call in the first clause of a `for`. -/
def InitSite : ForInit → ℕ → Prop
  | .none, _ => False
  | .decl _ _ init, p => OptionSite reg τ pos site init p
  | .expr e, p => ExprSite reg τ pos site e p

mutual

/-- The site is a call in the statement whose code begins at `p`, with the variables `syms`. -/
def StmtSite : List (Name × NType) → Stmt → ℕ → Prop
  | syms, .expr e, p => ExprSite reg τ pos site (stmtExpr reg syms e) p
  | _, .decl _ _ init, p => OptionSite reg τ pos site init p
  | syms, .block body, p => BlockSite syms body p
  | syms, .ifThen c t, p => OptionSite reg τ pos site (some c) p ∨
    ∃ stop m, CondAt reg τ (some c) p stop m ∧ StmtSite syms t m
  | syms, .ifElse c t e, p => OptionSite reg τ pos site (some c) p ∨
    ∃ stop m, CondAt reg τ (some c) p stop m ∧ (StmtSite syms t m ∨
      ∃ j d l, StmtAt reg τ syms t m j ∧ InstrAt τ.code j (.jmp d) l ∧
        StmtSite (syms ++ declsOf t) e l)
  | syms, .while c body, p => OptionSite reg τ pos site (some c) p ∨
    ∃ stop m, CondAt reg τ (some c) p stop m ∧ StmtSite syms body m
  | syms, .for init c post body, p => InitSite reg τ pos site init p ∨
    ∃ top, InitAt reg τ init p top ∧ (OptionSite reg τ pos site c top ∨
      ∃ stop m, CondAt reg τ c top stop m ∧ (StmtSite (syms ++ init.decls) body m ∨
        ∃ j, StmtAt reg τ (syms ++ init.decls) body m j ∧ OptionSite reg τ pos site post j))
  | _, .ret e, p => OptionSite reg τ pos site e p
  | _, .func _ _ _ _, _ => False

/-- The site is a call in one of the statements whose code begins at `p`. -/
def BlockSite : List (Name × NType) → List Stmt → ℕ → Prop
  | _, [], _ => False
  | syms, s :: ss, p => StmtSite syms s p ∨
    ∃ m, StmtAt reg τ syms s p m ∧ BlockSite (syms ++ declsOf s) ss m

end

end SitesOfTrees

/-! ### Operands -/

/-- An operand: the position at which it was last on top, where that is followed, and its value. -/
structure Operand where
  pos : Option ℕ
  value : U64

/-- The topmost operand is on top at `t`. -/
def onTop (t : ℕ) : List Operand → List Operand
  | [] => []
  | c :: ops => ⟨some t, c.value⟩ :: ops

/-- The operands on top when the site calls: the defaults, over the arguments. -/
structure CallSite.Ready (site : CallSite) (count : ℕ) (ops : List Operand) : Prop where
  checked : callDefaults site.found site.name site.args.length = .ok site.defaults
  count_eq : count = site.args.length + site.defaults.length
  ends_length : site.ends.length = site.args.length
  pushed : site.Tidy → ∃ defaults args rest, ops = defaults ++ (args ++ rest) ∧
    defaults.map Operand.value = site.defaults.reverse ∧
    args.map Operand.pos = (site.ends.map some).reverse

/-- The control flow of one function: from a position and operands to the next. Only the value that
`OP_PUSH` leaves is known. -/
def OpsNext (code : List Byte) (s t : ℕ × List Operand) : Prop :=
  t.1 ∈ (decode code s.1).1.targets (decode code s.1).2 ∧
    ∃ new, new.length = (decode code s.1).1.results ∧
      (∀ v, (decode code s.1).1 = .push v → ∀ c ∈ new, c.value = v) ∧
      t.2 = onTop t.1 (new ++ s.2.drop (decode code s.1).1.operands)

/-- An `OP_CALL` at the position belongs to a site of `W` and finds its operands. -/
def SiteOk (W : ℕ → CallSite → Prop) (strings : List Name) (code : List Byte)
    (s : ℕ × List Operand) : Prop :=
  ∀ si count, (decode code s.1).1 = .call si count →
    ∃ site, strings[si]? = some site.name ∧ W s.1 site ∧ site.Ready count s.2

/-- Position `p` with the operands `ops` is in order for `n` steps in an image. -/
def SitesFor (W : ℕ → CallSite → Prop) (τ : Image) (n p : ℕ) (ops : List Operand) : Prop :=
  SafeFor (SiteOk W τ.strings τ.code) (OpsNext τ.code) n (p, ops)

variable {W : ℕ → CallSite → Prop} {reg : Registry} {τ : Image} {n p q : ℕ} {i : Instr}
  {ops : List Operand}

/-! ### Steps back over instructions -/

/-- The step back over an instruction, with one step less left behind it. -/
theorem InstrAt.sitesFor_succ (h : InstrAt τ.code p i q)
    (hcall : ∀ si count, i = .call si count →
      ∃ site, τ.strings[si]? = some site.name ∧ W p site ∧ site.Ready count ops)
    (htargets : ∀ t ∈ i.targets q, ∀ new : List Operand, new.length = i.results →
      (∀ v, i = .push v → ∀ c ∈ new, c.value = v) →
      SitesFor W τ n t (onTop t (new ++ ops.drop i.operands))) :
    SitesFor W τ (n + 1) p ops := by
  have hdecode := h.decode
  refine ⟨fun si count hi ↦ hcall si count (by rw [← hi, hdecode]), ?_⟩
  rintro ⟨t, ops'⟩ ⟨ht, new, hlen, hpush, hops⟩
  simp only [hdecode] at ht hlen hpush hops
  rw [hops]
  exact htargets t ht new hlen hpush

/-- The step back over an instruction that leaves one operand. -/
theorem InstrAt.sitesFor_one (h : InstrAt τ.code p i q) (hi : i.targets q = [q])
    (hres : i.results = 1)
    (hcall : ∀ si count, i = .call si count →
      ∃ site, τ.strings[si]? = some site.name ∧ W p site ∧ site.Ready count ops)
    (hq : ∀ v, (∀ w, i = .push w → v = w) →
      SitesFor W τ n q (⟨some q, v⟩ :: ops.drop i.operands)) : SitesFor W τ n p ops := by
  refine SafeFor.of_succ (h.sitesFor_succ hcall fun t ht new hlen hpush ↦ ?_)
  rw [hi, List.mem_singleton] at ht
  subst ht
  rw [hres] at hlen
  obtain ⟨c, rfl⟩ := List.length_eq_one_iff.mp hlen
  exact hq c.value fun w hw ↦ hpush w hw c List.mem_cons_self

/-- The step back over an instruction that leaves none. -/
theorem InstrAt.sitesFor_none (h : InstrAt τ.code p i q) (hi : i.targets q = [q])
    (hres : i.results = 0) (hq : SitesFor W τ n q (onTop q (ops.drop i.operands))) :
    SitesFor W τ n p ops := by
  have hcall : ∀ si count, i ≠ .call si count := by
    rintro si count rfl
    cases hres
  refine SafeFor.of_succ (h.sitesFor_succ (fun si count heq ↦ absurd heq (hcall si count)) ?_)
  intro t ht new hlen _
  rw [hi, List.mem_singleton] at ht
  subst ht
  rw [hres] at hlen
  obtain rfl := List.length_eq_zero_iff.mp hlen
  exact hq

/-- The step back over `OP_DUP`. -/
theorem InstrAt.sitesFor_dup (h : InstrAt τ.code p .dup q)
    (hq : ∀ v c, SitesFor W τ n q (⟨some q, v⟩ :: c :: ops.drop 1)) : SitesFor W τ n p ops := by
  refine SafeFor.of_succ (h.sitesFor_succ nofun fun t ht new hlen _ ↦ ?_)
  rw [List.mem_singleton.mp ht]
  obtain ⟨a, b, rfl⟩ := List.length_eq_two.mp hlen
  exact hq a.value b

/-- The step back over a conditional jump. -/
theorem InstrAt.sitesFor_branch {t : ℕ} (h : InstrAt τ.code p i q)
    (hi : i = .jmpf t ∨ i = .jmpt t) (ht : ∀ l, SitesFor W τ n t l)
    (hq : ∀ l, SitesFor W τ n q l) : SitesFor W τ n p ops := by
  rcases hi with rfl | rfl
  all_goals
    refine SafeFor.of_succ (h.sitesFor_succ nofun fun r hr new _ _ ↦ ?_)
    rcases List.mem_cons.mp hr with rfl | hr
    · exact ht _
    · rw [List.mem_singleton.mp hr]
      exact hq _

/-- The step back over a jump; its target needs one step less. -/
theorem InstrAt.sitesFor_jmp {t : ℕ} (h : InstrAt τ.code p (.jmp t) q)
    (ht : ∀ l, SitesFor W τ n t l) : SitesFor W τ (n + 1) p ops := by
  refine h.sitesFor_succ nofun fun r hr new _ _ ↦ ?_
  rw [List.mem_singleton.mp hr]
  exact ht _

/-! ### Expressions -/

theorem exists_argsEnd : ∀ {es : List Expr} {p q : ℕ}, ArgsAt reg τ es p q →
    ∃ ends, ends.length = es.length ∧ ArgsEnd reg τ es ends p q
  | [], _, _, h => ⟨[], rfl, h⟩
  | _ :: _, _, _, ⟨m, he, hes⟩ => by
    obtain ⟨ends, hlen, hends⟩ := exists_argsEnd hes
    exact ⟨m :: ends, congrArg (· + 1) hlen, he, hends⟩

theorem tidyArgs_tail {es : List Expr} (h : tidyArgs es = true) : tidyArgs es.tail = true := by
  cases es with
  | nil => rfl
  | cons e es =>
    rw [tidyArgs, Bool.and_eq_true] at h
    exact h.2

/-- The pushes of the defaults leave them on top, the last one first. -/
theorem pushes_sitesFor {vs : List U64} (h : SeqAt τ.code p (vs.map .push) q)
    (hq : ∀ top, top.map Operand.value = vs.reverse → SitesFor W τ n q (top ++ ops)) :
    SitesFor W τ n p ops := by
  induction vs generalizing p ops with
  | nil =>
    obtain rfl : p = q := h
    exact hq [] rfl
  | cons v vs ih =>
    obtain ⟨m, hi, his⟩ := h
    refine hi.sitesFor_one rfl rfl nofun fun w hw ↦ ih his fun top htop ↦ ?_
    obtain rfl := hw v rfl
    have hall := hq (top ++ [⟨some m, w⟩]) (by rw [List.map_append, htop, List.reverse_cons]; rfl)
    rwa [List.append_assoc] at hall

/-- The end of a call, with the operands of its arguments on top. -/
theorem CallSite.sitesFor {site : CallSite} {si : ℕ} {m pos : ℕ}
    (hW : W pos site)
    (hchecked : callDefaults site.found site.name site.args.length = .ok site.defaults)
    (hends : site.ends.length = site.args.length)
    (hseq : SeqAt τ.code m (site.defaults.map .push) pos) (hsi : τ.strings[si]? = some site.name)
    (hi : InstrAt τ.code pos (.call si (site.args.length + site.defaults.length)) q)
    (hargs : site.Tidy → ∃ args rest, ops = args ++ rest ∧
      args.map Operand.pos = (site.ends.map some).reverse)
    (hq : ∀ v, SitesFor W τ n q (⟨some q, v⟩ :: ops.drop site.args.length)) :
    SitesFor W τ n m ops := by
  refine pushes_sitesFor hseq fun top htop ↦ ?_
  refine hi.sitesFor_one rfl rfl (fun si' count heq ↦ ?_) fun v _ ↦ ?_
  · obtain ⟨rfl, rfl⟩ := Instr.call.inj heq
    refine ⟨site, hsi, hW, hchecked, rfl, hends, fun htidy ↦ ?_⟩
    obtain ⟨args, rest, rfl, hpos⟩ := hargs htidy
    exact ⟨top, args, rest, rfl, htop, hpos⟩
  · have hlen : top.length = site.defaults.length := by
      rw [← List.length_map (f := Operand.value), htop, List.length_reverse]
    have hdrop : (top ++ ops).drop (site.args.length + site.defaults.length) =
        ops.drop site.args.length := by
      rw [Nat.add_comm, ← hlen, ← List.drop_drop, List.drop_left]
    change SitesFor W τ n q (_ :: (top ++ ops).drop (site.args.length + site.defaults.length))
    rw [hdrop]
    exact hq v

mutual

/-- An expression leaves its value on top, over what was there or, if it is not tidy, over whatever
else it leaves. -/
theorem ExprAt.sitesFor : ∀ {e : Expr} {p q n : ℕ} {ops : List Operand},
    (∀ pos site, ExprSite reg τ pos site e p → W pos site) → ExprAt reg τ e p q →
    (∀ v l, (e.tidy = true → l = ops) → SitesFor W τ n q (⟨some q, v⟩ :: l)) →
    SitesFor W τ n p ops
  | .lit _, _, _, _, ops, _, h, hq =>
    InstrAt.sitesFor_one h rfl rfl nofun fun v _ ↦ hq v ops fun _ ↦ rfl
  | .str _, _, _, _, ops, _, ⟨_, _, hi⟩, hq =>
    hi.sitesFor_one rfl rfl nofun fun v _ ↦ hq v ops fun _ ↦ rfl
  | .var _, _, _, _, ops, _, ⟨_, _, hi⟩, hq =>
    hi.sitesFor_one rfl rfl nofun fun v _ ↦ hq v ops fun _ ↦ rfl
  | .call f args, p, q, n, ops, hW,
      ⟨m, hargs, found, defaults, pos, si, hfound, hdefaults, hseq, hsi, hi⟩, hq => by
    obtain ⟨ends, hlen, hends⟩ := exists_argsEnd hargs
    let site : CallSite := ⟨f, args, ends, found, defaults⟩
    have hsite : W pos site :=
      hW pos site (Or.inl ⟨rfl, rfl, m, si, q, hends, hfound, hdefaults, hseq, hsi, hi⟩)
    refine ArgsEnd.sitesFor (fun pos' site' h ↦ hW pos' site' (Or.inr h)) hends fun l hl ↦ ?_
    refine CallSite.sitesFor hsite hdefaults hlen hseq hsi hi ?_ fun v ↦ ?_
    · intro htidy
      obtain ⟨top, rest, hl, hpos, -⟩ := hl htidy
      exact ⟨top, rest, hl, hpos⟩
    · refine hq v _ fun htidy ↦ ?_
      obtain ⟨top, rest, rfl, hpos, hrest⟩ := hl (tidyArgs_tail htidy)
      have htop : top.length = args.length := by
        rw [← List.length_map (f := Operand.pos), hpos, List.length_reverse, List.length_map, hlen]
      change (top ++ rest).drop args.length = ops
      rw [← htop, List.drop_left, hrest htidy]
  | .logic isAnd a b, p, q, n, ops, hW,
      ⟨j₁, m, j₂, l, j₃, r, ha, hj₁, hb, hj₂, hp₁, hj₃, hp₂⟩, hq => by
    have hbranch : ∀ t, logicJump isAnd t = .jmpf t ∨ logicJump isAnd t = .jmpt t := by
      cases isAnd
      · exact fun _ ↦ Or.inr rfl
      · exact fun _ ↦ Or.inl rfl
    have hr : ∀ ops, SitesFor W τ n r ops :=
      fun ops ↦ hp₂.sitesFor_one rfl rfl nofun fun v _ ↦ hq v ops nofun
    have hl : ∀ ops, SitesFor W τ n l ops :=
      fun ops ↦ hp₁.sitesFor_one rfl rfl nofun fun _ _ ↦ SafeFor.of_succ (hj₃.sitesFor_jmp hr)
    have hm : ∀ ops, SitesFor W τ n m ops := fun ops ↦
      ExprAt.sitesFor (fun pos site h ↦ hW pos site (Or.inr ⟨j₁, l, m, ha, hj₁, h⟩)) hb
        fun _ _ _ ↦ hj₂.sitesFor_branch (hbranch l) hl hl
    exact ExprAt.sitesFor (fun pos site h ↦ hW pos site (Or.inl h)) ha
      fun _ _ _ ↦ hj₁.sitesFor_branch (hbranch l) hl hm
  | .bin op a b, p, q, n, ops, hW, ⟨m, m', ha, hb, hi⟩, hq => by
    refine ExprAt.sitesFor (fun pos site h ↦ hW pos site (Or.inl h)) ha fun v l hl ↦ ?_
    refine ExprAt.sitesFor (fun pos site h ↦ hW pos site (Or.inr ⟨m, ha, h⟩)) hb
      fun v' l' hl' ↦ ?_
    refine hi.sitesFor_one rfl rfl nofun fun w _ ↦ hq w _ fun htidy ↦ ?_
    rw [Expr.tidy, Bool.and_eq_true] at htidy
    rw [hl' htidy.2, hl htidy.1]
    rfl
  | .un op a, p, q, n, ops, hW, ⟨m, ha, hi⟩, hq => by
    refine ExprAt.sitesFor (e := a) hW ha fun v l hl ↦ ?_
    cases op with
    | neg => exact hi.sitesFor_one rfl rfl nofun fun w _ ↦ hq w l hl
    | not => exact hi.sitesFor_one rfl rfl nofun fun w _ ↦ hq w l hl
    | bnot => exact hi.sitesFor_one rfl rfl nofun fun w _ ↦ hq w l hl
  | .preinc x plus, p, q, n, ops, _,
      ⟨s, hs, m₁, h₁, m₂, h₂, m₃, h₃, m₄, h₄, m₅, h₅, _, h₆, rfl⟩, hq => by
    refine h₁.sitesFor_one rfl rfl nofun fun _ _ ↦ h₂.sitesFor_one rfl rfl nofun fun _ _ ↦ ?_
    refine h₃.sitesFor_one rfl rfl nofun fun _ _ ↦ h₄.sitesFor_one rfl rfl nofun fun _ _ ↦ ?_
    exact h₅.sitesFor_dup fun _ c ↦ h₆.sitesFor_none rfl rfl (hq c.value _ nofun)
  | .postinc x plus, p, q, n, ops, _,
      ⟨s, hs, m₁, h₁, m₂, h₂, m₃, h₃, m₄, h₄, _, h₅, rfl⟩, hq => by
    refine h₁.sitesFor_one rfl rfl nofun fun _ _ ↦ h₂.sitesFor_dup fun _ c ↦ ?_
    refine h₃.sitesFor_one rfl rfl nofun fun _ _ ↦ h₄.sitesFor_one rfl rfl nofun fun _ _ ↦ ?_
    exact h₅.sitesFor_none rfl rfl (hq c.value ops fun _ ↦ rfl)
  | .assign op x a, p, q, n, ops, hW, ⟨s, hs, h⟩, hq => by
    simp only [ExprSite] at hW
    cases hop : op.binOp with
    | none =>
      simp only [hop] at h hW
      obtain ⟨m, ha, m₁, h₁, _, h₂, rfl⟩ := h
      refine ExprAt.sitesFor hW ha fun v l hl ↦ h₁.sitesFor_dup fun _ c ↦ ?_
      exact h₂.sitesFor_none rfl rfl (hq c.value l hl)
    | some bin =>
      simp only [hop] at h hW
      obtain ⟨m, m', hload, ha, m₁, h₁, m₂, h₂, _, h₃, rfl⟩ := h
      refine hload.sitesFor_one rfl rfl nofun fun v _ ↦ ?_
      refine ExprAt.sitesFor (fun pos site h ↦ hW pos site ⟨s, m, hload, h⟩) ha fun v' l hl ↦ ?_
      refine h₁.sitesFor_one rfl rfl nofun fun _ _ ↦ h₂.sitesFor_dup fun _ c ↦ ?_
      refine h₃.sitesFor_none rfl rfl (hq c.value _ fun htidy ↦ ?_)
      rw [hl htidy]
      rfl

/-- Arguments leave their values on top, the last one first. -/
theorem ArgsEnd.sitesFor : ∀ {es : List Expr} {ends : List ℕ} {p q n : ℕ} {ops : List Operand},
    (∀ pos site, ArgsSite reg τ pos site es p → W pos site) → ArgsEnd reg τ es ends p q →
    (∀ l, (tidyArgs es.tail = true → ∃ top rest, l = top ++ rest ∧
        top.map Operand.pos = (ends.map some).reverse ∧ (tidyArgs es = true → rest = ops)) →
      SitesFor W τ n q l) →
    SitesFor W τ n p ops
  | [], [], p, q, n, ops, _, h, hq => by
    obtain rfl : p = q := h
    exact hq ops fun _ ↦ ⟨[], ops, rfl, rfl, fun _ ↦ rfl⟩
  | e :: es, m :: ends, p, q, n, ops, hW, ⟨he, hes⟩, hq => by
    refine ExprAt.sitesFor (fun pos site h ↦ hW pos site (Or.inl h)) he fun v l hl ↦ ?_
    refine ArgsEnd.sitesFor (fun pos site h ↦ hW pos site (Or.inr ⟨m, he, h⟩)) hes
      fun l' hl' ↦ hq l' fun htidy ↦ ?_
    obtain ⟨top, rest, rfl, hpos, hrest⟩ := hl' (tidyArgs_tail htidy)
    refine ⟨top ++ [⟨some m, v⟩], l, ?_, ?_, fun hall ↦ ?_⟩
    · rw [hrest htidy, List.append_assoc]
      rfl
    · rw [List.map_append, hpos, List.map_cons (f := some), List.reverse_cons]
      rfl
    · rw [tidyArgs, Bool.and_eq_true] at hall
      exact hl hall.1

end

/-! ### Statements -/

section Statements

theorem DropAt.sitesFor {e : Expr}
    (hW : ∀ pos site, ExprSite reg τ pos site e p → W pos site) (h : DropAt reg τ e p q)
    (hq : ∀ l, SitesFor W τ n q l) : SitesFor W τ n p ops := by
  obtain ⟨m, he, hi⟩ := h
  exact he.sitesFor hW fun _ _ _ ↦ hi.sitesFor_none rfl rfl (hq _)

theorem DeclAt.sitesFor {x : Name} {init : Option Expr}
    (hW : ∀ pos site, OptionSite reg τ pos site init p → W pos site) (h : DeclAt reg τ x init p q)
    (hq : ∀ l, SitesFor W τ n q l) : SitesFor W τ n p ops := by
  obtain ⟨slot, -, h⟩ := h
  cases init with
  | none =>
    obtain rfl : p = q := h
    exact hq ops
  | some e =>
    obtain ⟨m, he, hi⟩ := h
    exact he.sitesFor hW fun _ _ _ ↦ hi.sitesFor_none rfl rfl (hq _)

theorem InitAt.sitesFor {init : ForInit}
    (hW : ∀ pos site, InitSite reg τ pos site init p → W pos site) (h : InitAt reg τ init p q) (hq : ∀ l, SitesFor W τ n q l) : SitesFor W τ n p ops := by
  cases init with
  | none =>
    obtain rfl : p = q := h
    exact hq ops
  | decl x type e => exact DeclAt.sitesFor hW h hq
  | expr e => exact DropAt.sitesFor hW h hq

theorem PostAt.sitesFor {post : Option Expr}
    (hW : ∀ pos site, OptionSite reg τ pos site post p → W pos site) (h : PostAt reg τ post p q) (hq : ∀ l, SitesFor W τ n q l) : SitesFor W τ n p ops := by
  cases post with
  | none =>
    obtain rfl : p = q := h
    exact hq ops
  | some e => exact DropAt.sitesFor hW h hq

theorem CondAt.sitesFor {cond : Option Expr} {stop : ℕ}
    (hW : ∀ pos site, OptionSite reg τ pos site cond p → W pos site) (h : CondAt reg τ cond p stop q)
    (hstop : ∀ l, SitesFor W τ n stop l) (hq : ∀ l, SitesFor W τ n q l) :
    SitesFor W τ n p ops := by
  cases cond with
  | none =>
    obtain rfl : p = q := h
    exact hq ops
  | some e =>
    obtain ⟨j, he, hi⟩ := h
    exact he.sitesFor hW fun _ _ _ ↦ hi.sitesFor_branch (Or.inl rfl) hstop hq

/-- A loop is in order when its rounds are: the jump back has used up a step. -/
theorem loop_sitesFor {cond : Option Expr} {j m : ℕ}
    (hW : ∀ pos site, OptionSite reg τ pos site cond p → W pos site) (hcond : CondAt reg τ cond p q m)
    (hround : ∀ k, (∀ l, SitesFor W τ k j l) → ∀ l, SitesFor W τ k m l)
    (hjmp : InstrAt τ.code j (.jmp p) q) (hq : ∀ l, SitesFor W τ n q l) :
    SitesFor W τ n p ops := by
  induction n generalizing ops with
  | zero => exact trivial
  | succ n ih =>
    have hback : ∀ l, SitesFor W τ (n + 1) j l :=
      fun l ↦ hjmp.sitesFor_jmp fun _ ↦ ih fun l ↦ SafeFor.of_succ (hq l)
    exact hcond.sitesFor hW hq (hround (n + 1) hback)

end Statements

mutual

/-- The calls of a statement are in order if what follows it is. -/
theorem StmtAt.sitesFor : ∀ {s : Stmt} {syms : List (Name × NType)} {p q n : ℕ},
    (∀ pos site, StmtSite reg τ pos site syms s p → W pos site) → StmtAt reg τ syms s p q →
    (∀ l, SitesFor W τ n q l) → ∀ l, SitesFor W τ n p l
  | .expr _, _, _, _, _, hW, h, hq, _ => DropAt.sitesFor hW h hq
  | .decl _ _ _, _, _, _, _, hW, h, hq, _ => DeclAt.sitesFor hW h hq
  | .block _, _, _, _, _, hW, h, hq, _ => BlockAt.sitesFor hW h hq _
  | .ifThen c t, _, _, q, _, hW, ⟨m, hcond, ht⟩, hq, _ =>
    hcond.sitesFor (fun pos site h ↦ hW pos site (Or.inl h)) hq
      (StmtAt.sitesFor (fun pos site h ↦ hW pos site (Or.inr ⟨q, m, hcond, h⟩)) ht hq)
  | .ifElse c t e, _, _, q, _, hW, ⟨m, j, l, hcond, ht, hj, he⟩, hq, _ =>
    hcond.sitesFor (fun pos site h ↦ hW pos site (Or.inl h))
      (StmtAt.sitesFor (fun pos site h ↦
        hW pos site (Or.inr ⟨l, m, hcond, Or.inr ⟨j, q, l, ht, hj, h⟩⟩)) he hq)
      (StmtAt.sitesFor (fun pos site h ↦ hW pos site (Or.inr ⟨l, m, hcond, Or.inl h⟩)) ht
        fun _ ↦ SafeFor.of_succ (hj.sitesFor_jmp hq))
  | .while c body, _, _, q, _, hW, ⟨m, j, hcond, hbody, hj⟩, hq, _ =>
    loop_sitesFor (fun pos site h ↦ hW pos site (Or.inl h)) hcond
      (fun _ ↦ StmtAt.sitesFor (fun pos site h ↦ hW pos site (Or.inr ⟨q, m, hcond, h⟩)) hbody) hj hq
  | .for init c post body, _, _, q, _, hW,
      ⟨top, m, j, k, hinit, hcond, hbody, hpost, hj⟩, hq, _ =>
    hinit.sitesFor (fun pos site h ↦ hW pos site (Or.inl h)) fun _ ↦
      loop_sitesFor (fun pos site h ↦ hW pos site (Or.inr ⟨top, hinit, Or.inl h⟩)) hcond
        (fun _ hk ↦ StmtAt.sitesFor
          (fun pos site h ↦ hW pos site (Or.inr ⟨top, hinit, Or.inr ⟨q, m, hcond, Or.inl h⟩⟩)) hbody
          fun _ ↦ hpost.sitesFor (fun pos site h ↦ hW pos site
            (Or.inr ⟨top, hinit, Or.inr ⟨q, m, hcond, Or.inr ⟨j, hbody, h⟩⟩⟩)) hk) hj hq
  | .ret e, _, p, q, n, hW, ⟨_, m, hval, hi⟩, _, l => by
    have hm : ∀ l, SitesFor W τ n m l :=
      fun l ↦ SafeFor.of_succ (hi.sitesFor_succ nofun nofun)
    cases e with
    | none => exact InstrAt.sitesFor_one hval rfl rfl nofun fun _ _ ↦ hm _
    | some e => exact ExprAt.sitesFor hW hval fun _ _ _ ↦ hm _
  | .func _ _ _ _, _, _, _, _, _, h, _, _ => absurd h id

/-- The calls of a block are in order if what follows it is. -/
theorem BlockAt.sitesFor : ∀ {ss : List Stmt} {syms : List (Name × NType)} {p q n : ℕ},
    (∀ pos site, BlockSite reg τ pos site syms ss p → W pos site) → BlockAt reg τ syms ss p q →
    (∀ l, SitesFor W τ n q l) → ∀ l, SitesFor W τ n p l
  | [], _, p, q, n, _, h, hq, l => by
    obtain rfl : p = q := h
    exact hq l
  | _ :: _, _, _, _, _, hW, ⟨m, hs, hss⟩, hq, _ =>
    StmtAt.sitesFor (fun pos site h ↦ hW pos site (Or.inl h)) hs
      (BlockAt.sitesFor (fun pos site h ↦ hW pos site (Or.inr ⟨m, hs, h⟩)) hss hq) _

end

end NoOsKernel.Noc
