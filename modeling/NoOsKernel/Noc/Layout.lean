import NoOsKernel.Noc.Emit

/-!
# Where the code of a tree stands

`ExprAt`, `StmtAt` and the predicates around them describe finished code: which instructions stand
between two positions of an image, with every jump at its target. The main results say that the
one-pass compiler produces such code for every tree it accepts (`compileExpr_lays`,
`compileStmt_lays`). All later reasoning is about the predicates.
-/

set_option autoImplicit false
set_option relaxedAutoImplicit false

namespace NoOsKernel.Noc

open Lib

/-! ### Tables -/

section Tables

variable {syms : List (Name × NType)} {x y : Name} {s : ℕ}

theorem resolveVar_getElem? (h : resolveVar syms x = some s) : ∃ type, syms[s]? = some (x, type) := by
  induction syms generalizing s with
  | nil => exact absurd h (by rintro ⟨⟩)
  | cons sym syms ih =>
    rw [resolveVar] at h
    split at h
    · rename_i s' hs'
      obtain rfl := Option.some.inj h
      rw [List.getElem?_cons_succ]
      exact ih hs'
    · split_ifs at h with heq
      obtain rfl := Option.some.inj h
      exact ⟨sym.2, by rw [List.getElem?_cons_zero, ← heq]⟩

theorem resolveVar_lt (h : resolveVar syms x = some s) : s < syms.length := by
  obtain ⟨type, hs⟩ := resolveVar_getElem? h
  exact (List.getElem?_eq_some_iff.mp hs).1

theorem resolveVar_append (syms : List (Name × NType)) (y : Name) (type : NType) (x : Name) :
    resolveVar (syms ++ [(y, type)]) x =
      if y = x then some syms.length else resolveVar syms x := by
  induction syms with
  | nil => rfl
  | cons sym syms ih =>
    rw [List.cons_append, resolveVar, ih]
    by_cases heq : y = x
    · rw [if_pos heq, if_pos heq]
      rfl
    · rw [if_neg heq, if_neg heq]
      rfl

theorem isSome_resolveVar (h : x ∈ syms.map Prod.fst) :
    (resolveVar syms x).isSome = true := by
  induction syms with
  | nil => exact absurd h List.not_mem_nil
  | cons sym syms ih =>
    rw [resolveVar]
    split
    · rfl
    · rename_i hnone
      rcases List.mem_cons.mp h with heq | hin
      · rw [if_pos heq.symm]
        rfl
      · have hsome := ih hin
        rw [hnone] at hsome
        exact absurd hsome (by rintro ⟨⟩)

end Tables

variable {os : NocOs} {reg : Registry} {c c₁ c₂ c₃ c' : CComp}

theorem resolve_lays {x : Name} {s : ℕ} (h : resolveVar c.syms x = some s) :
    Lays c c [] fun τ ↦ resolveVar τ.syms x = some s ∧ s < 2 ^ 32 := by
  refine ⟨Extends.refl c, fun τ hτ ↦ ⟨hτ.resolve x s h, ?_⟩⟩
  have hlt := resolveVar_lt h
  have hle := hτ.small.syms
  rw [nocMaxLocals] at hle
  omega

theorem resolveOr_eq_ok {x : Name} {s : ℕ} (h : resolveOr c x = .ok s) :
    resolveVar c.syms x = some s := by
  unfold resolveOr at h
  split at h
  · obtain rfl := Except.ok.inj h
    assumption
  · exact absurd h (by rintro ⟨⟩)

theorem addString_lays {s : Name} {i : ℕ} (h : addString os c s = .ok (c', i)) :
    codePc c' = codePc c ∧ Lays c c' [] fun τ ↦ τ.strings[i]? = some s ∧ i < 2 ^ 32 := by
  -- in both branches the string is at `i` of a table the image extends
  have hplaced : ∀ τ, Placed τ c c' → c'.strings[i]? = some s →
      τ.strings[i]? = some s ∧ i < 2 ^ 32 := by
    intro τ hτ hi
    obtain ⟨hlt, -⟩ := List.getElem?_eq_some_iff.mp hi
    obtain ⟨more, hmore⟩ := hτ.strings
    have hle := hτ.small.strings
    rw [nocMaxStrings] at hle
    refine ⟨?_, by omega⟩
    rw [← hmore, List.getElem?_append_left hlt, hi]
  unfold addString at h
  split at h
  · rename_i j hj
    obtain ⟨rfl, rfl⟩ := Prod.mk.inj (Except.ok.inj h)
    obtain ⟨hlt, heq, -⟩ := List.findIdx?_eq_some_iff_getElem.mp hj
    refine ⟨rfl, Extends.refl c, fun τ hτ ↦ hplaced τ hτ ?_⟩
    rw [List.getElem?_eq_getElem hlt, of_decide_eq_true heq]
  · split_ifs at h with hfull halloc
    obtain ⟨rfl, rfl⟩ := Prod.mk.inj (Except.ok.inj h)
    refine ⟨rfl, ?_, fun τ hτ ↦ hplaced τ hτ List.getElem?_concat_length⟩
    constructor
    · exact List.prefix_refl _
    · exact (List.append_nil _).symm
    · exact fun _ _ hx ↦ hx
    · exact id
    · exact List.prefix_append _ _
    · rfl
    · exact id
    · intro hb
      have hlen : (c.strings ++ [s]).length ≤ nocMaxStrings := by
        rw [List.length_append, List.length_singleton]
        omega
      exact ⟨⟨hb.code, hb.syms, hlen⟩, hb.len_le, hb.cap_le⟩

theorem addVar_lays {x : Name} {type : NType} (h : addVar c x type = .ok c') :
    codePc c' = codePc c ∧ Lays c c' [(x, type)] fun τ ↦
      resolveVar τ.syms x = some c.syms.length ∧ c.syms.length < 2 ^ 32 := by
  unfold addVar at h
  split_ifs at h with hdup hfull
  obtain rfl := Except.ok.inj h
  rw [Bool.not_eq_true, Option.isSome_eq_false_iff, Option.isNone_iff_eq_none] at hdup
  rw [nocMaxLocals] at hfull
  refine ⟨rfl, ?_, fun τ hτ ↦ ⟨hτ.resolve x _ ?_, by omega⟩⟩
  · constructor
    · exact List.prefix_refl _
    · rfl
    · intro y s hy
      have hne : x ≠ y := by
        rintro rfl
        rw [hdup] at hy
        exact absurd hy (by rintro ⟨⟩)
      rw [resolveVar_append, if_neg hne, hy]
    · intro hnodup
      rw [List.map_append]
      refine List.nodup_append.mpr ⟨hnodup, List.pairwise_singleton _ x, fun y hy z hz ↦ ?_⟩
      rintro rfl
      rw [List.mem_singleton.mp hz] at hy
      have hsome := isSome_resolveVar hy
      rw [hdup] at hsome
      exact absurd hsome (by rintro ⟨⟩)
    · exact List.prefix_refl _
    · rfl
    · exact id
    · intro hb
      have hlen : (c.syms ++ [(x, type)]).length ≤ nocMaxLocals := by
        rw [List.length_append, List.length_singleton, nocMaxLocals]
        omega
      exact ⟨⟨hb.code, hlen, hb.strings⟩, hb.len_le, hb.cap_le⟩
  · rw [resolveVar_append, if_pos rfl]

/-! ### Expressions -/

/-- Instructions one after the other. -/
def SeqAt (code : List Byte) : ℕ → List Instr → ℕ → Prop
  | p, [], q => p = q
  | p, i :: is, q => ∃ m, InstrAt code p i m ∧ SeqAt code m is q

/-- The end of a call: the defaults of the arguments left out and the instruction. -/
def CallAt (reg : Registry) (τ : Image) (f : Name) (nargs p q : ℕ) : Prop :=
  ∃ callee defaults m si, nocLookup reg f = some callee ∧
    callDefaults callee f nargs = .ok defaults ∧
    SeqAt τ.code p (defaults.map .push) m ∧
    τ.strings[si]? = some f ∧ InstrAt τ.code m (.call si (nargs + defaults.length)) q

/-- The jump out of a short-circuit operator. -/
def logicJump (isAnd : Bool) : ℕ → Instr := if isAnd then .jmpf else .jmpt

/-- The instruction of a unary operator. -/
def UnOp.instr : UnOp → Instr
  | .neg => .neg
  | .not => .not
  | .bnot => .bnot

mutual

/-- The code of an expression stands from `p` to `q`. -/
def ExprAt (reg : Registry) (τ : Image) : Expr → ℕ → ℕ → Prop
  | .lit v, p, q => InstrAt τ.code p (.push v) q
  | .str s, p, q => ∃ si, τ.strings[si]? = some s ∧ InstrAt τ.code p (.pushStr si) q
  | .var x, p, q => ∃ s, resolveVar τ.syms x = some s ∧ InstrAt τ.code p (.load s) q
  | .call f args, p, q => ∃ m, ArgsAt reg τ args p m ∧ CallAt reg τ f args.length m q
  | .logic isAnd a b, p, q => ∃ j₁ m j₂ l j₃ d,
    ExprAt reg τ a p j₁ ∧ InstrAt τ.code j₁ (logicJump isAnd l) m ∧
    ExprAt reg τ b m j₂ ∧ InstrAt τ.code j₂ (logicJump isAnd l) l ∧
    InstrAt τ.code l (.push (if isAnd then 0 else 1)) j₃ ∧ InstrAt τ.code j₃ (.jmp d) d ∧
    InstrAt τ.code d (.push (if isAnd then 1 else 0)) q
  | .bin op a b, p, q => ∃ m m', ExprAt reg τ a p m ∧ ExprAt reg τ b m m' ∧
    InstrAt τ.code m' (.bin op) q
  | .un op a, p, q => ∃ m, ExprAt reg τ a p m ∧ InstrAt τ.code m op.instr q
  | .preinc x plus, p, q => ∃ s, resolveVar τ.syms x = some s ∧
    SeqAt τ.code p [.load s, .load s, .push (incStep plus), .bin .add, .dup, .store s] q
  | .postinc x plus, p, q => ∃ s, resolveVar τ.syms x = some s ∧
    SeqAt τ.code p [.load s, .dup, .push (incStep plus), .bin .add, .store s] q
  | .assign op x a, p, q => ∃ s, resolveVar τ.syms x = some s ∧
    match op.binOp with
    | none => ∃ m, ExprAt reg τ a p m ∧ SeqAt τ.code m [.dup, .store s] q
    | some bin => ∃ m m', InstrAt τ.code p (.load s) m ∧ ExprAt reg τ a m m' ∧
      SeqAt τ.code m' [.bin bin, .dup, .store s] q

/-- The code of some expressions stands from `p` to `q`, in order. -/
def ArgsAt (reg : Registry) (τ : Image) : List Expr → ℕ → ℕ → Prop
  | [], p, q => p = q
  | e :: es, p, q => ∃ m, ExprAt reg τ e p m ∧ ArgsAt reg τ es m q

end

theorem InstrAt.lt {code : List Byte} {p q : ℕ} {i : Instr} (h : InstrAt code p i q) : p < q := by
  have hpos := List.length_pos_iff.mpr (encode_ne_nil i)
  have hq := h.2.2
  omega

theorem SeqAt.le {code : List Byte} {is : List Instr} {p q : ℕ} (h : SeqAt code p is q) :
    p + is.length ≤ q := by
  induction is generalizing p with
  | nil => exact Nat.le_of_eq h
  | cons i is ih =>
    obtain ⟨m, hi, his⟩ := h
    have hlt := hi.lt
    have hle := ih his
    rw [List.length_cons]
    omega

mutual

theorem ExprAt.lt {τ : Image} : ∀ {e : Expr} {p q : ℕ}, ExprAt reg τ e p q → p < q
  | .lit _, _, _, h => InstrAt.lt h
  | .str _, _, _, ⟨_, _, h⟩ => h.lt
  | .var _, _, _, ⟨_, _, h⟩ => h.lt
  | .call _ _, _, _, ⟨_, hargs, _, _, _, _, _, _, hseq, _, hi⟩ =>
    (Nat.le_of_add_right_le hargs.le).trans_lt ((Nat.le_of_add_right_le hseq.le).trans_lt hi.lt)
  | .logic _ _ _, _, _, ⟨_, _, _, _, _, _, ha, h₁, hb, h₂, h₃, h₄, h₅⟩ =>
    ha.lt.trans (h₁.lt.trans (hb.lt.trans (h₂.lt.trans (h₃.lt.trans (h₄.lt.trans h₅.lt)))))
  | .bin _ _ _, _, _, ⟨_, _, ha, hb, hi⟩ => ha.lt.trans (hb.lt.trans hi.lt)
  | .un _ _, _, _, ⟨_, ha, hi⟩ => ha.lt.trans hi.lt
  | .preinc _ _, _, _, ⟨_, _, h⟩ => (Nat.lt_add_of_pos_right (Nat.succ_pos _)).trans_le h.le
  | .postinc _ _, _, _, ⟨_, _, h⟩ => (Nat.lt_add_of_pos_right (Nat.succ_pos _)).trans_le h.le
  | .assign .assign _ _, _, _, ⟨_, _, _, ha, h⟩ => ha.lt.trans_le (Nat.le_of_add_right_le h.le)
  | .assign .add _ _, _, _, ⟨_, _, _, _, hi, ha, h⟩ =>
    hi.lt.trans (ha.lt.trans_le (Nat.le_of_add_right_le h.le))
  | .assign .sub _ _, _, _, ⟨_, _, _, _, hi, ha, h⟩ =>
    hi.lt.trans (ha.lt.trans_le (Nat.le_of_add_right_le h.le))
  | .assign .mul _ _, _, _, ⟨_, _, _, _, hi, ha, h⟩ =>
    hi.lt.trans (ha.lt.trans_le (Nat.le_of_add_right_le h.le))
  | .assign .div _ _, _, _, ⟨_, _, _, _, hi, ha, h⟩ =>
    hi.lt.trans (ha.lt.trans_le (Nat.le_of_add_right_le h.le))

theorem ArgsAt.le {τ : Image} : ∀ {es : List Expr} {p q : ℕ}, ArgsAt reg τ es p q →
    p + es.length ≤ q
  | [], _, _, h => Nat.le_of_eq h
  | _ :: es, p, q, ⟨m, he, hes⟩ => by
    have hlt := he.lt
    have hle := hes.le
    rw [List.length_cons]
    omega

end

theorem emitDefaults_lays {vs : List U64} (h : emitDefaults os c vs = .ok c') :
    Lays c c' [] fun τ ↦ SeqAt τ.code (codePc c) (vs.map .push) (codePc c') := by
  induction vs generalizing c with
  | nil =>
    obtain rfl := Except.ok.inj h
    exact (Lays.refl c).mono fun _ _ ↦ rfl
  | cons v vs ih =>
    obtain ⟨c₁, hv, hvs⟩ := exists_of_bind_eq_ok h
    exact ((emit_instr_lays (.push v) trivial hv).andThen (ih hvs)).mono fun _ hτ ↦ ⟨_, hτ⟩

theorem emitCall_lays {f : Name} {count : ℕ} (h : emitCall os c f count = .ok c') :
    Lays c c' [] fun τ ↦ ∃ si, τ.strings[si]? = some f ∧
      (count < 2 ^ 32 → InstrAt τ.code (codePc c) (.call si count) (codePc c')) := by
  obtain ⟨⟨c₁, si⟩, hstr, hemit⟩ := exists_of_bind_eq_ok h
  obtain ⟨hpc, hlays⟩ := addString_lays hstr
  refine (hlays.andThen (emit_lays (.call si count) hemit)).mono fun τ ⟨⟨hsi, hlt⟩, hi⟩ ↦ ?_
  refine ⟨si, hsi, fun hcount ↦ ?_⟩
  rw [← hpc]
  exact hi.instrAt ⟨hlt, hcount⟩

/-- A call, given where its arguments stand and that each takes room. -/
theorem compileCallWith_lays {f : Name} {nargs : ℕ} {args : CComp → Compiled}
    {A : Image → ℕ → ℕ → Prop} (h : compileCallWith os reg c f nargs args = .ok c')
    (hargs : ∀ c₁, args c = .ok c₁ → Lays c c₁ [] fun τ ↦ A τ (codePc c) (codePc c₁))
    (hroom : ∀ τ p q, A τ p q → p + nargs ≤ q) :
    Lays c c' [] fun τ ↦ ∃ m, A τ (codePc c) m ∧ CallAt reg τ f nargs m (codePc c') := by
  unfold compileCallWith at h
  split at h
  · exact absurd h (by rintro ⟨⟩)
  · rename_i callee hcallee
    obtain ⟨defaults, hdefaults, h⟩ := exists_of_bind_eq_ok h
    obtain ⟨c₁, h₁, h⟩ := exists_of_bind_eq_ok h
    obtain ⟨c₂, h₂, h₃⟩ := exists_of_bind_eq_ok h
    have hlays := ((hargs c₁ h₁).andThen (emitDefaults_lays h₂)).withPlaced.andThen
      (emitCall_lays h₃)
    refine hlays.mono fun τ ⟨⟨⟨hA, hseq⟩, hτ⟩, si, hsi, hi⟩ ↦ ?_
    have hle := hroom τ _ _ hA
    have hle' := hseq.le
    rw [List.length_map] at hle'
    have hsmall : codePc c₂ ≤ 2 ^ 30 := hτ.small.code
    exact ⟨codePc c₁, hA, callee, defaults, codePc c₂, si, hcallee, hdefaults, hseq, hsi,
      hi (by omega)⟩

theorem isJump_logicJump (isAnd : Bool) :
    IsJump (if isAnd then opJmpf else opJmpt) (logicJump isAnd) := by
  cases isAnd
  · exact isJump_jmpt
  · exact isJump_jmpf

theorem UnOp.encode_instr (op : UnOp) : encode op.instr = [op.opcode] := by
  cases op <;> rfl

theorem UnOp.instr_fits (op : UnOp) : op.instr.Fits := by
  cases op <;> trivial

theorem codePc_patchJump {at_ t : ℕ} (h : at_ + 5 ≤ codePc c) :
    codePc (patchJump c at_ t) = codePc c := by
  rw [codePc] at h
  exact length_overwrite (by rw [length_leBytes]; omega)

theorem Lays.codePc_le {ds : List (Name × NType)} {Q : Image → Prop} (h : Lays c c' ds Q) :
    codePc c ≤ codePc c' :=
  h.1.code.length_le

/-- The end of a short-circuit operator: both jumps reach the first `OP_PUSH`, and the jump behind
it the second. -/
theorem logic_lays {isAnd : Bool} {c₄ c₅ c₆ c₇ : CComp} {Q : Image → Prop}
    (h₁ : emitJump os c (if isAnd then opJmpf else opJmpt) = .ok c₁) (hb : Lays c₁ c₂ [] Q)
    (h₂ : emitJump os c₂ (if isAnd then opJmpf else opJmpt) = .ok c₃)
    (h₃ : emit1v os c₃ opPush (if isAnd then 0 else 1) = .ok c₄)
    (h₄ : emitJump os c₄ opJmp = .ok c₅)
    (h₅ : emit1v os c₅ opPush (if isAnd then 1 else 0) = .ok c₆)
    (h₆ : patchJump (patchJump (patchJump c₆ (codePc c) (codePc c₃)) (codePc c₂) (codePc c₃))
      (codePc c₄) (codePc c₅) = c₇) :
    Lays c c₇ [] fun τ ↦
      InstrAt τ.code (codePc c) (logicJump isAnd (codePc c₃)) (codePc c₁) ∧ Q τ ∧
      InstrAt τ.code (codePc c₂) (logicJump isAnd (codePc c₃)) (codePc c₃) ∧
      InstrAt τ.code (codePc c₃) (.push (if isAnd then 0 else 1)) (codePc c₄) ∧
      InstrAt τ.code (codePc c₄) (.jmp (codePc c₅)) (codePc c₅) ∧
      InstrAt τ.code (codePc c₅) (.push (if isAnd then 1 else 0)) (codePc c₇) := by
  have hpush₁ := emit_instr_lays (.push (if isAnd then 0 else 1)) trivial h₃
  have hpush₂ := emit_instr_lays (.push (if isAnd then 1 else 0)) trivial h₅
  have hpc₁ := emitJump_pc h₁
  have hpc₃ := emitJump_pc h₂
  have hpc₅ := emitJump_pc h₄
  have hle₂ := hb.codePc_le
  have hle₄ := hpush₁.codePc_le
  have hle₆ := hpush₂.codePc_le
  -- the patches run outwards in the source and are justified inwards
  have hcomm : c₇ = patchJump (patchJump (patchJump c₆ (codePc c₄) (codePc c₅)) (codePc c₂)
      (codePc c₃)) (codePc c) (codePc c₃) := by
    rw [← h₆, patchJump_comm (c := c₆) (by omega) (by omega),
      patchJump_comm (by omega) (by rw [codePc_patchJump (by omega)]; omega),
      patchJump_comm (c := c₆) (by omega) (by omega)]
  have hlen₆ : codePc (patchJump c₆ (codePc c₄) (codePc c₅)) = codePc c₆ :=
    codePc_patchJump (by omega)
  have hlen₇ : codePc c₇ = codePc c₆ := by
    rw [hcomm, codePc_patchJump, codePc_patchJump, hlen₆]
    · omega
    · rw [codePc_patchJump] <;> omega
  have hin := jump_lays (t := codePc c₅) isJump_jmp h₄ hpush₂ hle₆
  have hmid := jump_lays (t := codePc c₃) (isJump_logicJump isAnd) h₂ (hpush₁.andThen hin)
    (by omega)
  have hout := jump_lays (t := codePc c₃) (isJump_logicJump isAnd) h₁ (hb.andThen hmid)
    (by rw [codePc_patchJump] <;> omega)
  rw [← hcomm] at hout
  refine hout.mono fun τ ⟨hj₁, hQ, hj₂, hp₁, hj₃, hp₂⟩ ↦ ?_
  rw [hlen₇]
  exact ⟨hj₁, hQ, hj₂, hp₁, hj₃, hp₂⟩

mutual

/-- The code of every accepted expression stands where it was emitted. -/
theorem compileExpr_lays : ∀ (e : Expr) {c c' : CComp}, compileExpr os reg c e = .ok c' →
    Lays c c' [] fun τ ↦ ExprAt reg τ e (codePc c) (codePc c')
  | .lit v, c, c', h => emit_instr_lays (.push v) trivial h
  | .str s, c, c', h => by
    obtain ⟨⟨c₁, si⟩, hstr, hemit⟩ := exists_of_bind_eq_ok h
    obtain ⟨hpc, hlays⟩ := addString_lays hstr
    refine (hlays.andThen (emit_lays (.pushStr si) hemit)).mono fun τ ⟨⟨hsi, hlt⟩, hi⟩ ↦ ?_
    rw [← hpc]
    exact ⟨si, hsi, hi.instrAt hlt⟩
  | .var x, c, c', h => by
    obtain ⟨s, hs, hemit⟩ := exists_of_bind_eq_ok h
    refine ((resolve_lays (resolveOr_eq_ok hs)).andThen (emit_lays (.load s) hemit)).mono
      fun τ ⟨⟨hres, hlt⟩, hi⟩ ↦ ?_
    exact ⟨s, hres, hi.instrAt hlt⟩
  | .call f args, c, c', h => by
    rw [compileExpr] at h
    exact compileCallWith_lays h (fun c₁ h₁ ↦ compileArgs_lays args h₁) fun τ p q hA ↦ hA.le
  | .logic isAnd a b, c, c', h => by
    rw [compileExpr] at h
    obtain ⟨c₁, h₁, h⟩ := exists_of_bind_eq_ok h
    obtain ⟨c₂, h₂, h⟩ := exists_of_bind_eq_ok h
    obtain ⟨c₃, h₃, h⟩ := exists_of_bind_eq_ok h
    obtain ⟨c₄, h₄, h⟩ := exists_of_bind_eq_ok h
    obtain ⟨c₅, h₅, h⟩ := exists_of_bind_eq_ok h
    obtain ⟨c₆, h₆, h⟩ := exists_of_bind_eq_ok h
    obtain ⟨c₇, h₇, h⟩ := exists_of_bind_eq_ok h
    refine ((compileExpr_lays a h₁).andThen
      (logic_lays h₂ (compileExpr_lays b h₃) h₄ h₅ h₆ h₇ (Except.ok.inj h))).mono ?_
    rintro τ ⟨ha, hj₁, hb, hj₂, hp₁, hj₃, hp₂⟩
    exact ⟨_, _, _, _, _, _, ha, hj₁, hb, hj₂, hp₁, hj₃, hp₂⟩
  | .bin op a b, c, c', h => by
    rw [compileExpr] at h
    obtain ⟨c₁, h₁, h⟩ := exists_of_bind_eq_ok h
    obtain ⟨c₂, h₂, h₃⟩ := exists_of_bind_eq_ok h
    refine (((compileExpr_lays a h₁).andThen (compileExpr_lays b h₂)).andThen
      (emit_instr_lays (.bin op) trivial h₃)).mono fun τ ⟨⟨ha, hb⟩, hi⟩ ↦ ?_
    exact ⟨_, _, ha, hb, hi⟩
  | .un op a, c, c', h => by
    rw [compileExpr] at h
    obtain ⟨c₁, h₁, h₂⟩ := exists_of_bind_eq_ok h
    have hemit : emit os c₁ (encode op.instr) = .ok c' := by rwa [op.encode_instr]
    refine ((compileExpr_lays a h₁).andThen (emit_instr_lays op.instr op.instr_fits hemit)).mono
      fun τ ⟨ha, hi⟩ ↦ ?_
    exact ⟨_, ha, hi⟩
  | .preinc x plus, c, c', h => by
    rw [compileExpr] at h
    obtain ⟨s, hs, h⟩ := exists_of_bind_eq_ok h
    obtain ⟨c₁, h₁, h⟩ := exists_of_bind_eq_ok h
    obtain ⟨c₂, h₂, h⟩ := exists_of_bind_eq_ok h
    obtain ⟨c₃, h₃, h⟩ := exists_of_bind_eq_ok h
    obtain ⟨c₄, h₄, h⟩ := exists_of_bind_eq_ok h
    obtain ⟨c₅, h₅, h₆⟩ := exists_of_bind_eq_ok h
    have hall := (resolve_lays (resolveOr_eq_ok hs)).andThen ((emit_lays (.load s) h₁).andThen
      ((emit_lays (.load s) h₂).andThen ((emit_lays (.push _) h₃).andThen
        ((emit_lays (.bin .add) h₄).andThen ((emit_lays .dup h₅).andThen
          (emit_lays (.store s) h₆))))))
    refine hall.mono fun τ ⟨⟨hres, hlt⟩, hi₁, hi₂, hi₃, hi₄, hi₅, hi₆⟩ ↦ ?_
    exact ⟨s, hres, _, hi₁.instrAt hlt, _, hi₂.instrAt hlt, _, hi₃.instrAt trivial, _,
      hi₄.instrAt trivial, _, hi₅.instrAt trivial, _, hi₆.instrAt hlt, rfl⟩
  | .postinc x plus, c, c', h => by
    rw [compileExpr] at h
    obtain ⟨s, hs, h⟩ := exists_of_bind_eq_ok h
    obtain ⟨c₁, h₁, h⟩ := exists_of_bind_eq_ok h
    obtain ⟨c₂, h₂, h⟩ := exists_of_bind_eq_ok h
    obtain ⟨c₃, h₃, h⟩ := exists_of_bind_eq_ok h
    obtain ⟨c₄, h₄, h₅⟩ := exists_of_bind_eq_ok h
    have hall := (resolve_lays (resolveOr_eq_ok hs)).andThen ((emit_lays (.load s) h₁).andThen
      ((emit_lays .dup h₂).andThen ((emit_lays (.push _) h₃).andThen
        ((emit_lays (.bin .add) h₄).andThen (emit_lays (.store s) h₅)))))
    refine hall.mono fun τ ⟨⟨hres, hlt⟩, hi₁, hi₂, hi₃, hi₄, hi₅⟩ ↦ ?_
    exact ⟨s, hres, _, hi₁.instrAt hlt, _, hi₂.instrAt trivial, _, hi₃.instrAt trivial, _,
      hi₄.instrAt trivial, _, hi₅.instrAt hlt, rfl⟩
  | .assign op x a, c, c', h => by
    rw [compileExpr] at h
    obtain ⟨s, hs, h⟩ := exists_of_bind_eq_ok h
    have hres := resolve_lays (resolveOr_eq_ok hs)
    cases hop : op.binOp with
    | none =>
      simp only [hop] at h
      obtain ⟨c₁, h₁, h⟩ := exists_of_bind_eq_ok h
      obtain ⟨c₂, h₂, h₃⟩ := exists_of_bind_eq_ok h
      have hall := hres.andThen ((compileExpr_lays a h₁).andThen
        ((emit_lays .dup h₂).andThen (emit_lays (.store s) h₃)))
      refine hall.mono fun τ ⟨⟨hres, hlt⟩, ha, hi₁, hi₂⟩ ↦ ⟨s, hres, ?_⟩
      simp only [hop]
      exact ⟨_, ha, _, hi₁.instrAt trivial, _, hi₂.instrAt hlt, rfl⟩
    | some bin =>
      simp only [hop] at h
      obtain ⟨c₁, h₁, h⟩ := exists_of_bind_eq_ok h
      obtain ⟨c₂, h₂, h⟩ := exists_of_bind_eq_ok h
      obtain ⟨c₃, h₃, h⟩ := exists_of_bind_eq_ok h
      obtain ⟨c₄, h₄, h₅⟩ := exists_of_bind_eq_ok h
      have hall := hres.andThen ((emit_lays (.load s) h₁).andThen
        ((compileExpr_lays a h₂).andThen ((emit_lays (.bin bin) h₃).andThen
          ((emit_lays .dup h₄).andThen (emit_lays (.store s) h₅)))))
      refine hall.mono fun τ ⟨⟨hres, hlt⟩, hi₁, ha, hi₂, hi₃, hi₄⟩ ↦ ⟨s, hres, ?_⟩
      simp only [hop]
      exact ⟨_, _, hi₁.instrAt hlt, ha, _, hi₂.instrAt trivial, _, hi₃.instrAt trivial, _,
        hi₄.instrAt hlt, rfl⟩

theorem compileArgs_lays : ∀ (es : List Expr) {c c' : CComp}, compileArgs os reg c es = .ok c' →
    Lays c c' [] fun τ ↦ ArgsAt reg τ es (codePc c) (codePc c')
  | [], c, c', h => by
    obtain rfl := Except.ok.inj h
    exact (Lays.refl c).mono fun _ _ ↦ rfl
  | e :: es, c, c', h => by
    rw [compileArgs] at h
    obtain ⟨c₁, h₁, h₂⟩ := exists_of_bind_eq_ok h
    exact ((compileExpr_lays e h₁).andThen (compileArgs_lays es h₂)).mono fun _ hτ ↦ ⟨_, hτ⟩

end

/-! ### Statements -/

/-- The variables the first clause of a `for` declares. -/
def ForInit.decls : ForInit → List (Name × NType)
  | .decl x type _ => [(x, type)]
  | _ => []

mutual

/-- The variables a statement declares, in the order of their slots. -/
def declsOf : Stmt → List (Name × NType)
  | .decl x type _ => [(x, type)]
  | .block body => declsOfBlock body
  | .ifThen _ t => declsOf t
  | .ifElse _ t e => declsOf t ++ declsOf e
  | .while _ body => declsOf body
  | .for init _ _ body => init.decls ++ declsOf body
  | _ => []

/-- The variables the statements of a block declare. -/
def declsOfBlock : List Stmt → List (Name × NType)
  | [] => []
  | s :: ss => declsOf s ++ declsOfBlock ss

end

/-- The expression an expression statement stands for: an identifier that names a function and no
variable is a call without arguments. -/
def stmtExpr (reg : Registry) (syms : List (Name × NType)) : Expr → Expr
  | .var x =>
    if (resolveVar syms x).isSome then .var x
    else if (nocLookup reg x).isSome then .call x []
    else .var x
  | e => e

/-- An expression and the removal of its value. -/
def DropAt (reg : Registry) (τ : Image) (e : Expr) (p q : ℕ) : Prop :=
  ∃ m, ExprAt reg τ e p m ∧ InstrAt τ.code m .pop q

/-- A declaration. -/
def DeclAt (reg : Registry) (τ : Image) (x : Name) (init : Option Expr) (p q : ℕ) : Prop :=
  ∃ slot, resolveVar τ.syms x = some slot ∧
    match init with
    | none => p = q
    | some e => ∃ m, ExprAt reg τ e p m ∧ InstrAt τ.code m (.store slot) q

/-- The first clause of a `for`. -/
def InitAt (reg : Registry) (τ : Image) (init : ForInit) (p q : ℕ) : Prop :=
  match init with
  | .none => p = q
  | .decl x _ e => DeclAt reg τ x e p q
  | .expr e => DropAt reg τ e p q

/-- The condition of a loop, which leaves for `stop`. -/
def CondAt (reg : Registry) (τ : Image) (cond : Option Expr) (p stop q : ℕ) : Prop :=
  match cond with
  | none => p = q
  | some e => ∃ j, ExprAt reg τ e p j ∧ InstrAt τ.code j (.jmpf stop) q

/-- The last clause of a `for`. -/
def PostAt (reg : Registry) (τ : Image) (post : Option Expr) (p q : ℕ) : Prop :=
  match post with
  | none => p = q
  | some e => DropAt reg τ e p q

/-- The value of a `return`. -/
def RetAt (reg : Registry) (τ : Image) (e : Option Expr) (p q : ℕ) : Prop :=
  match e with
  | none => InstrAt τ.code p (.push 0) q
  | some e => ExprAt reg τ e p q

mutual

/-- The code of a statement that begins with the variables `syms` stands from `p` to `q`. -/
def StmtAt (reg : Registry) (τ : Image) : List (Name × NType) → Stmt → ℕ → ℕ → Prop
  | syms, .expr e, p, q => DropAt reg τ (stmtExpr reg syms e) p q
  | _, .decl x _ init, p, q => DeclAt reg τ x init p q
  | syms, .block body, p, q => BlockAt reg τ syms body p q
  | syms, .ifThen cond t, p, q => ∃ m, CondAt reg τ (some cond) p q m ∧ StmtAt reg τ syms t m q
  | syms, .ifElse cond t e, p, q => ∃ m j l, CondAt reg τ (some cond) p l m ∧
    StmtAt reg τ syms t m j ∧ InstrAt τ.code j (.jmp q) l ∧
    StmtAt reg τ (syms ++ declsOf t) e l q
  | syms, .while cond body, p, q => ∃ m j, CondAt reg τ (some cond) p q m ∧
    StmtAt reg τ syms body m j ∧ InstrAt τ.code j (.jmp p) q
  | syms, .for init cond post body, p, q => ∃ top m j k, InitAt reg τ init p top ∧
    CondAt reg τ cond top q m ∧ StmtAt reg τ (syms ++ init.decls) body m j ∧
    PostAt reg τ post j k ∧ InstrAt τ.code k (.jmp top) q
  | _, .ret e, p, q => τ.inFn = true ∧ ∃ m, RetAt reg τ e p m ∧ InstrAt τ.code m .ret q
  | _, .func _ _ _ _, _, _ => False

/-- The code of the statements of a block stands from `p` to `q`. -/
def BlockAt (reg : Registry) (τ : Image) : List (Name × NType) → List Stmt → ℕ → ℕ → Prop
  | _, [], p, q => p = q
  | syms, s :: ss, p, q => ∃ m, StmtAt reg τ syms s p m ∧
    BlockAt reg τ (syms ++ declsOf s) ss m q

end

theorem Lays.syms_eq {Q : Image → Prop} (h : Lays c c' [] Q) : c'.syms = c.syms := by
  rw [h.1.syms, List.append_nil]

theorem compileDrop_lays {e : Expr} (h : compileDrop os reg c e = .ok c') :
    Lays c c' [] fun τ ↦ DropAt reg τ e (codePc c) (codePc c') := by
  obtain ⟨c₁, h₁, h₂⟩ := exists_of_bind_eq_ok h
  exact ((compileExpr_lays e h₁).andThen (emit_instr_lays .pop trivial h₂)).mono
    fun _ hτ ↦ ⟨_, hτ⟩

theorem compileDecl_lays {x : Name} {type : NType} {init : Option Expr}
    (h : compileDecl os reg c x type init = .ok c') :
    Lays c c' [(x, type)] fun τ ↦ DeclAt reg τ x init (codePc c) (codePc c') := by
  obtain ⟨c₁, h₁, h⟩ := exists_of_bind_eq_ok h
  obtain ⟨hpc, hvar⟩ := addVar_lays h₁
  cases init with
  | none =>
    obtain rfl := Except.ok.inj h
    exact hvar.mono fun τ hτ ↦ ⟨_, hτ.1, hpc.symm⟩
  | some e =>
    obtain ⟨c₂, h₂, h₃⟩ := exists_of_bind_eq_ok h
    refine ((hvar.andThen (compileExpr_lays e h₂)).andThen (emit_lays (.store _) h₃)).mono
      fun τ ⟨⟨⟨hres, hlt⟩, he⟩, hi⟩ ↦ ?_
    rw [hpc] at he
    exact ⟨_, hres, _, he, hi.instrAt hlt⟩

theorem compileInit_lays {init : ForInit} (h : compileInit os reg c init = .ok c') :
    Lays c c' init.decls fun τ ↦ InitAt reg τ init (codePc c) (codePc c') := by
  cases init with
  | none =>
    obtain rfl := Except.ok.inj h
    exact (Lays.refl c).mono fun _ _ ↦ rfl
  | decl x type e => exact compileDecl_lays h
  | expr e => exact compileDrop_lays h

theorem compilePost_lays {post : Option Expr} (h : compilePost os reg c post = .ok c') :
    Lays c c' [] fun τ ↦ PostAt reg τ post (codePc c) (codePc c') := by
  cases post with
  | none =>
    obtain rfl := Except.ok.inj h
    exact (Lays.refl c).mono fun _ _ ↦ rfl
  | some e => exact compileDrop_lays h

/-- An expression statement compiles the expression it stands for. -/
theorem compileStmtExpr_eq (c : CComp) (e : Expr) (last : Bool) :
    compileStmtExpr os reg c e last =
      (compileExpr os reg c (stmtExpr reg c.syms e) >>= fun c₁ ↦
        finishExpr os c₁ last (decide (exprType reg c.syms (stmtExpr reg c.syms e) ≠ .void))) := by
  cases e with
  | var x =>
    cases hvar : resolveVar c.syms x with
    | some s => simp [compileStmtExpr, bareCall, stmtExpr, hvar]
    | none =>
      cases hfn : nocLookup reg x with
      | none => simp [compileStmtExpr, bareCall, stmtExpr, hvar, hfn]
      | some f =>
        simp [compileStmtExpr, bareCall, stmtExpr, hvar, hfn, compileExpr, compileArgs, exprType]
  | _ => rfl

/-- A statement that does not end a line drops its value. -/
theorem compileStmtExpr_lays {e : Expr} (h : compileStmtExpr os reg c e false = .ok c') :
    Lays c c' [] fun τ ↦ DropAt reg τ (stmtExpr reg c.syms e) (codePc c) (codePc c') := by
  rw [compileStmtExpr_eq] at h
  obtain ⟨c₁, h₁, h₂⟩ := exists_of_bind_eq_ok h
  exact ((compileExpr_lays _ h₁).andThen (emit_instr_lays .pop trivial h₂)).mono
    fun _ hτ ↦ ⟨_, hτ⟩

/-- A condition and what its jump passes over, with the jump patched to `t`. -/
theorem cond_lays {cond : Expr} {t : ℕ} {ds : List (Name × NType)} {Q : Image → Prop}
    (h₁ : compileExpr os reg c cond = .ok c₁) (h₂ : emitJump os c₁ opJmpf = .ok c₂)
    (h₃ : Lays c₂ c₃ ds Q) (ht : t ≤ codePc c₃) :
    Lays c (patchJump c₃ (codePc c₁) t) ds fun τ ↦
      CondAt reg τ (some cond) (codePc c) t (codePc c₂) ∧ Q τ :=
  ((compileExpr_lays cond h₁).andThen (jump_lays isJump_jmpf h₂ h₃ ht)).mono
    fun _ ⟨he, hj, hQ⟩ ↦ ⟨⟨_, he, hj⟩, hQ⟩

/-- A condition and its jump leave the scope as it was. -/
theorem cond_syms {cond : Expr} (h₁ : compileExpr os reg c cond = .ok c₁)
    (h₂ : emitJump os c₁ opJmpf = .ok c₂) : c₂.syms = c.syms := by
  rw [(emit_lays (.jmpf 0) h₂).syms_eq, (compileExpr_lays cond h₁).syms_eq]

/-- A condition whose jump is patched to the end of what it passes over. -/
theorem cond_lays_end {cond : Expr} {ds : List (Name × NType)} {Q : Image → Prop}
    (h₁ : compileExpr os reg c cond = .ok c₁) (h₂ : emitJump os c₁ opJmpf = .ok c₂)
    (h₃ : Lays c₂ c₃ ds Q) (h : patchJump c₃ (codePc c₁) (codePc c₃) = c') :
    codePc c' = codePc c₃ ∧ Lays c c' ds fun τ ↦
      CondAt reg τ (some cond) (codePc c) (codePc c₃) (codePc c₂) ∧ Q τ := by
  have hpc := emitJump_pc h₂
  have hle := h₃.codePc_le
  refine ⟨by rw [← h, codePc_patchJump (by omega)], ?_⟩
  rw [← h]
  exact cond_lays h₁ h₂ h₃ le_rfl

mutual

/-- The code of every accepted statement stands where it was emitted. -/
theorem compileStmt_lays : ∀ (s : Stmt) {c c' : CComp}, compileStmt os reg c false s = .ok c' →
    Lays c c' (declsOf s) fun τ ↦ StmtAt reg τ c.syms s (codePc c) (codePc c')
  | .expr e, c, c', h => compileStmtExpr_lays h
  | .decl x type init, c, c', h => compileDecl_lays h
  | .block body, c, c', h => by
    rw [compileStmt] at h
    exact compileBlock_lays body h
  | .ifThen cond t, c, c', h => by
    rw [compileStmt] at h
    obtain ⟨c₁, h₁, h⟩ := exists_of_bind_eq_ok h
    obtain ⟨c₂, h₂, h⟩ := exists_of_bind_eq_ok h
    obtain ⟨c₃, h₃, h⟩ := exists_of_bind_eq_ok h
    obtain ⟨hlen, hall⟩ := cond_lays_end h₁ h₂ (compileStmt_lays t h₃) (Except.ok.inj h)
    rw [cond_syms h₁ h₂] at hall
    refine hall.mono fun τ hτ ↦ ?_
    rw [hlen]
    exact ⟨_, hτ⟩
  | .ifElse cond t e, c, c', h => by
    rw [compileStmt] at h
    obtain ⟨c₁, h₁, h⟩ := exists_of_bind_eq_ok h
    obtain ⟨c₂, h₂, h⟩ := exists_of_bind_eq_ok h
    obtain ⟨c₃, h₃, h⟩ := exists_of_bind_eq_ok h
    obtain ⟨c₄, h₄, h⟩ := exists_of_bind_eq_ok h
    obtain ⟨c₅, h₅, h⟩ := exists_of_bind_eq_ok h
    have hthen := compileStmt_lays t h₃
    have helse := compileStmt_lays e h₅
    have hpc₂ := emitJump_pc h₂
    have hpc₄ := emitJump_pc h₄
    have hle₃ := hthen.codePc_le
    have hle₅ := helse.codePc_le
    have hlen₅ : codePc (patchJump c₅ (codePc c₃) (codePc c₅)) = codePc c₅ :=
      codePc_patchJump (by omega)
    have hc' : patchJump (patchJump c₅ (codePc c₃) (codePc c₅)) (codePc c₁) (codePc c₄) = c' := by
      rw [← Except.ok.inj h]
      exact (patchJump_comm (by omega) (by omega)).symm
    have hlen : codePc c' = codePc c₅ := by
      rw [← hc', codePc_patchJump (by omega), hlen₅]
    have hsyms₂ := cond_syms h₁ h₂
    have hsyms₄ : c₄.syms = c.syms ++ declsOf t := by
      rw [(emit_lays (.jmp 0) h₄).syms_eq, hthen.1.syms, hsyms₂]
    have hall := cond_lays h₁ h₂
      (hthen.andThen (jump_lays (t := codePc c₅) isJump_jmp h₄ helse le_rfl))
      (show codePc c₄ ≤ _ by omega)
    rw [hc', hsyms₂, hsyms₄] at hall
    refine hall.mono fun τ ⟨hcond, ht, hj, he⟩ ↦ ?_
    rw [hlen]
    exact ⟨_, _, _, hcond, ht, hj, he⟩
  | .while cond body, c, c', h => by
    rw [compileStmt] at h
    obtain ⟨c₁, h₁, h⟩ := exists_of_bind_eq_ok h
    obtain ⟨c₂, h₂, h⟩ := exists_of_bind_eq_ok h
    obtain ⟨c₃, h₃, h⟩ := exists_of_bind_eq_ok h
    obtain ⟨c₄, h₄, h⟩ := exists_of_bind_eq_ok h
    have hbody := compileStmt_lays body h₃
    have hle₁ := (compileExpr_lays cond h₁).codePc_le
    have hpc₂ := emitJump_pc h₂
    have hle₃ := hbody.codePc_le
    have hback := emitJumpAt_lays h₄ (by omega)
    obtain ⟨hlen, hall⟩ := cond_lays_end h₁ h₂ (hbody.andThen hback) (Except.ok.inj h)
    rw [cond_syms h₁ h₂, List.append_nil] at hall
    refine hall.mono fun τ ⟨hcond, hb, hj⟩ ↦ ?_
    rw [hlen]
    exact ⟨_, _, hcond, hb, hj⟩
  | .for init none post body, c, c', h => by
    rw [compileStmt] at h
    obtain ⟨c₁, h₁, h⟩ := exists_of_bind_eq_ok h
    obtain ⟨c₂, h₂, h⟩ := exists_of_bind_eq_ok h
    obtain ⟨c₃, h₃, h₄⟩ := exists_of_bind_eq_ok h
    have hinit := compileInit_lays h₁
    have hbody := compileStmt_lays body h₂
    have hpost := compilePost_lays h₃
    have hle₂ := hbody.codePc_le
    have hle₃ := hpost.codePc_le
    have hall := hinit.andThen (hbody.andThen (hpost.andThen (emitJumpAt_lays h₄ (by omega))))
    rw [hinit.1.syms, List.append_nil, List.append_nil] at hall
    refine hall.mono fun τ ⟨hi, hb, hp, hj⟩ ↦ ?_
    exact ⟨_, _, _, _, hi, rfl, hb, hp, hj⟩
  | .for init (some cond) post body, c, c', h => by
    rw [compileStmt] at h
    obtain ⟨c₁, h₁, h⟩ := exists_of_bind_eq_ok h
    obtain ⟨c₂, h₂, h⟩ := exists_of_bind_eq_ok h
    obtain ⟨c₃, h₃, h⟩ := exists_of_bind_eq_ok h
    obtain ⟨c₄, h₄, h⟩ := exists_of_bind_eq_ok h
    obtain ⟨c₅, h₅, h⟩ := exists_of_bind_eq_ok h
    obtain ⟨c₆, h₆, h⟩ := exists_of_bind_eq_ok h
    have hinit := compileInit_lays h₁
    have hbody := compileStmt_lays body h₄
    have hpost := compilePost_lays h₅
    have hle₂ := (compileExpr_lays cond h₂).codePc_le
    have hpc₃ := emitJump_pc h₃
    have hle₄ := hbody.codePc_le
    have hle₅ := hpost.codePc_le
    have hback := emitJumpAt_lays h₆ (by omega)
    obtain ⟨hlen, hpassed⟩ :=
      cond_lays_end h₂ h₃ (hbody.andThen (hpost.andThen hback)) (Except.ok.inj h)
    have hall := hinit.andThen hpassed
    rw [cond_syms h₂ h₃, hinit.1.syms, List.append_nil, List.append_nil] at hall
    refine hall.mono fun τ ⟨hi, hcond, hb, hp, hj⟩ ↦ ?_
    rw [hlen]
    exact ⟨_, _, _, _, hi, hcond, hb, hp, hj⟩
  | .ret e, c, c', h => by
    rw [compileStmt] at h
    split_ifs at h with hin
    rw [Bool.not_eq_true, Bool.not_eq_false'] at hin
    obtain ⟨c₁, hval, h₂⟩ : ∃ c₁,
        Lays c c₁ [] (fun τ ↦ RetAt reg τ e (codePc c) (codePc c₁)) ∧
          emit1 os c₁ opRet = .ok c' := by
      cases e with
      | none =>
        obtain ⟨c₁, h₁, h₂⟩ := exists_of_bind_eq_ok h
        exact ⟨c₁, emit_instr_lays (.push 0) trivial h₁, h₂⟩
      | some e =>
        obtain ⟨c₁, h₁, h₂⟩ := exists_of_bind_eq_ok h
        exact ⟨c₁, compileExpr_lays e h₁, h₂⟩
    have hall := (hval.andThen (emit_instr_lays .ret trivial h₂)).withPlaced
    refine hall.mono fun τ ⟨⟨hv, hi⟩, hτ⟩ ↦ ⟨?_, _, hv, hi⟩
    rw [hτ.inFn, hall.1.inFn, hin]
  | .func _ _ _ _, c, c', h => by
    rw [compileStmt] at h
    exact absurd h (by rintro ⟨⟩)

theorem compileBlock_lays : ∀ (ss : List Stmt) {c c' : CComp},
    compileBlock os reg c ss = .ok c' →
    Lays c c' (declsOfBlock ss) fun τ ↦ BlockAt reg τ c.syms ss (codePc c) (codePc c')
  | [], c, c', h => by
    rw [compileBlock] at h
    obtain rfl := Except.ok.inj h
    exact (Lays.refl c).mono fun _ _ ↦ rfl
  | s :: ss, c, c', h => by
    rw [compileBlock] at h
    obtain ⟨c₁, h₁, h₂⟩ := exists_of_bind_eq_ok h
    have hs := compileStmt_lays s h₁
    have hss := compileBlock_lays ss h₂
    rw [hs.1.syms] at hss
    exact (hs.andThen hss).mono fun _ hτ ↦ ⟨_, hτ⟩

end

end NoOsKernel.Noc
