import Mathlib.Data.List.Induction
import NoOsKernel.Noc.Correctness
import NoOsKernel.Noc.TreeCode

/-!
# What is left to do, one instruction at a time

The machine keeps the variables of a function in the slots of its frame and the values above them,
the newest on top (`Cells`). The instruction of a thing that has no parts does to the cells what
`Acts` says, and it does so whenever there is room.
-/

set_option autoImplicit false
set_option relaxedAutoImplicit false

namespace NoOsKernel.Noc

open Lib

/-! ### What may come from outside -/

/-- The machine gets no other answers and addresses. -/
structure Outside.Allows (o : Outside) (env : VmEnv) : Prop where
  answers : ∀ iter index args v, env.builtins iter index args = some v → o.answers index args v
  addresses : ∀ (fn : NocFn) si s, fn.strings[si]? = some s → o.addresses s (env.strAddr fn si)

/-- Answers and addresses that do not change, and no key. -/
def steadyEnv (address : Name → U64) (answer : ℕ → List U64 → Option U64) : VmEnv where
  builtins := fun _ ↦ answer
  strAddr := fun fn si ↦ address (fn.strings.getD si [])
  kbd := fun _ ↦ false

variable {o : Outside} {env : VmEnv} {reg : Registry} {τ : Image} {base top p q : ℕ} {E E' : Vars}
  {vs vs' : List U64} {v : U64} {stack stack' : ℕ → U64} {s₀ s s' : VmState} {f : Frame}

theorem strAddr_steadyEnv {address : Name → U64} {answer : ℕ → List U64 → Option U64} {fn : NocFn}
    {si : ℕ} {x : Name} (h : fn.strings[si]? = some x) :
    (steadyEnv address answer).strAddr fn si = address x := by
  change address (fn.strings.getD si []) = address x
  rw [List.getD_eq_getElem?_getD, h]
  rfl

theorem Outside.allows_steadyEnv {address : Name → U64} {answer : ℕ → List U64 → Option U64}
    (haddress : ∀ s, o.addresses s (address s))
    (hanswer : ∀ index args v, answer index args = some v → o.answers index args v) :
    o.Allows (steadyEnv address answer) where
  answers _ index args v h := hanswer index args v h
  addresses fn si s h := by
    rw [strAddr_steadyEnv h]
    exact haddress s

/-- There is an address for every string, with the one of `x` given. -/
theorem Outside.exists_addresses (o : Outside) {x : Name} (h : o.addresses x v) :
    ∃ address : Name → U64, (∀ s, o.addresses s (address s)) ∧ address x = v := by
  choose address haddress using o.exists_address
  refine ⟨Function.update address x v, fun s ↦ ?_, Function.update_self ..⟩
  by_cases hs : s = x
  · rw [hs, Function.update_self]
    exact h
  · rw [Function.update_of_ne hs]
    exact haddress s

/-- A machine that asks for nothing else is given what is allowed. -/
theorem Outside.exists_allowed (o : Outside) : ∃ env, o.Allows env ∧ ∀ n, env.kbd n = false := by
  choose address haddress using o.exists_address
  exact ⟨steadyEnv address fun _ _ ↦ none, o.allows_steadyEnv haddress nofun, fun _ ↦ rfl⟩

/-! ### Cells -/

/-- The values lie on the stack from `base` on, the newest on top. -/
def Piled (stack : ℕ → U64) (base : ℕ) : List U64 → Prop
  | [] => True
  | v :: vs => stack (base + vs.length) = v ∧ Piled stack base vs

theorem Piled.congr (h : Piled stack base vs)
    (hstack : ∀ k, base ≤ k → k < base + vs.length → stack' k = stack k) : Piled stack' base vs := by
  induction vs with
  | nil => exact trivial
  | cons v vs ih =>
    rw [List.length_cons] at hstack
    refine ⟨?_, ih h.2 fun k hlo hhi ↦ hstack k hlo (by omega)⟩
    rw [hstack _ (by omega) (by omega)]
    exact h.1

/-- Some values and those below them. -/
theorem Piled.append {args : List U64} (h : Piled stack base (args.reverse ++ vs)) :
    (∀ k w, args[k]? = some w → stack (base + vs.length + k) = w) ∧ Piled stack base vs := by
  induction args using List.reverseRecOn with
  | nil => exact ⟨nofun, h⟩
  | append_singleton args a ih =>
    rw [List.reverse_append, List.reverse_singleton, List.singleton_append, List.cons_append] at h
    obtain ⟨hargs, hvs⟩ := ih h.2
    refine ⟨fun k w hk ↦ ?_, hvs⟩
    by_cases hlt : k < args.length
    · rw [List.getElem?_append_left hlt] at hk
      exact hargs k w hk
    · have hlen := (List.getElem?_eq_some_iff.mp hk).1
      rw [List.length_append, List.length_singleton] at hlen
      obtain rfl : k = args.length := by omega
      rw [List.getElem?_concat_length] at hk
      obtain rfl := Option.some.inj hk
      have htop := h.1
      rw [List.length_append, List.length_reverse] at htop
      rw [← htop]
      congr 1
      omega

/-- The variables of a function and its values lie on the stack from `base` up to `top`. -/
structure Cells (τ : Image) (stack : ℕ → U64) (base : ℕ) (E : Vars) (vs : List U64) (top : ℕ) :
    Prop where
  holds : Holds τ E fun k ↦ stack (base + k)
  piled : Piled stack (base + τ.syms.length) vs
  top_eq : top = base + τ.syms.length + vs.length

theorem Cells.congr (h : Cells τ stack base E vs top)
    (hstack : ∀ k, base ≤ k → k < top → stack' k = stack k) : Cells τ stack' base E vs top := by
  have htop := h.top_eq
  refine ⟨fun x k hk ↦ ?_, h.piled.congr fun k hlo hhi ↦ hstack k (by omega) (by omega), htop⟩
  have hlt := resolveVar_lt hk
  change stack' (base + k) = E x
  rw [hstack _ (by omega) (by omega)]
  exact h.holds x k hk

/-- The machine with a value pushed. -/
def VmState.pushed (s : VmState) (v : U64) : VmState :=
  { s with stack := Function.update s.stack s.sp v, sp := s.sp + 1 }

/-- The machine with some values popped. -/
def VmState.popped (s : VmState) (n : ℕ) : VmState := { s with sp := s.sp - n }

theorem vmPush_eq_ok_iff : vmPush s v = .ok s' ↔ s.sp < nocStackSize ∧ s' = s.pushed v := by
  rw [vmPush]
  split_ifs with hfull
  · exact ⟨nofun, fun h ↦ absurd h.1 (Nat.not_lt_of_le hfull)⟩
  · refine ⟨fun h ↦ ⟨Nat.lt_of_not_le hfull, (Except.ok.inj h).symm⟩, ?_⟩
    rintro ⟨-, rfl⟩
    rfl

/-- The machine `s` has these cells above `base`, and is otherwise as `s₀`. -/
structure Lands (τ : Image) (base : ℕ) (s₀ s : VmState) (E : Vars) (vs : List U64) : Prop where
  cells : Cells τ s.stack base E vs s.sp
  frames : s.frames = s₀.frames
  below : ∀ k < base, s.stack k = s₀.stack k

theorem Cells.lands (h : Cells τ s.stack base E vs s.sp) : Lands τ base s s E vs :=
  ⟨h, rfl, fun _ _ ↦ rfl⟩

theorem Lands.push (h : Lands τ base s₀ s E vs) (v : U64) :
    Lands τ base s₀ (s.pushed v) E (v :: vs) := by
  have htop := h.cells.top_eq
  have hsame : ∀ k < s.sp, (s.pushed v).stack k = s.stack k :=
    fun k hk ↦ Function.update_of_ne (Nat.ne_of_lt hk) _ _
  have hcells := h.cells.congr fun k _ hk ↦ hsame k hk
  refine ⟨⟨hcells.holds, ⟨?_, hcells.piled⟩, ?_⟩, h.frames, fun k hk ↦ ?_⟩
  · rw [← htop]
    exact Function.update_self ..
  · change s.sp + 1 = base + τ.syms.length + (vs.length + 1)
    omega
  · rw [hsame k (by omega)]
    exact h.below k hk

theorem Lands.pop (h : Lands τ base s₀ s E (v :: vs)) : Lands τ base s₀ (s.popped 1) E vs := by
  have htop := h.cells.top_eq
  rw [List.length_cons] at htop
  exact ⟨⟨h.cells.holds, h.cells.piled.2, Nat.sub_eq_of_eq_add htop⟩, h.frames, h.below⟩

theorem Lands.popList {args : List U64} (h : Lands τ base s₀ s E (args.reverse ++ vs)) :
    Lands τ base s₀ (s.popped args.length) E vs := by
  have htop := h.cells.top_eq
  rw [List.length_append, List.length_reverse] at htop
  refine ⟨⟨h.cells.holds, h.cells.piled.append.2, ?_⟩, h.frames, h.below⟩
  change s.sp - args.length = _
  omega

/-- A value is stored in the slot of a variable. -/
theorem Lands.store {x : Name} {k : ℕ} (h : Lands τ base s₀ s E vs)
    (hk : resolveVar τ.syms x = some k) (v : U64) :
    Lands τ base s₀ { s with stack := Function.update s.stack (base + k) v }
      (Function.update E x v) vs := by
  have hlt := resolveVar_lt hk
  have hslot : (fun j ↦ Function.update s.stack (base + k) v (base + j)) =
      Function.update (fun j ↦ s.stack (base + j)) k v := by
    funext j
    by_cases hj : j = k
    · rw [hj, Function.update_self, Function.update_self]
    · rw [Function.update_of_ne hj, Function.update_of_ne (by omega)]
  refine ⟨⟨?_, ?_, h.cells.top_eq⟩, h.frames, fun j hj ↦ ?_⟩
  · rw [hslot]
    exact h.cells.holds.update_slot hk v
  · exact h.cells.piled.congr fun j hlo _ ↦ Function.update_of_ne (by omega) _ _
  · simp only
    rw [Function.update_of_ne (by omega)]
    exact h.below j hj

/-! ### Instructions -/

/-- The topmost value. -/
theorem Cells.vmPop_eq (h : Cells τ s.stack base E (v :: vs) s.sp) :
    vmPop s = .ok (v, s.popped 1) := by
  have htop := h.top_eq
  rw [List.length_cons] at htop
  have hcell : s.stack (s.sp - 1) = v := by
    rw [show s.sp - 1 = base + τ.syms.length + vs.length by omega]
    exact h.piled.1
  rw [vmPop, if_neg (by omega), hcell]
  rfl

theorem Cells.exec_dup (h : Cells τ s.stack base E (v :: vs) s.sp) :
    vmExec reg env s f .dup = vmPush s v := by
  have htop := h.top_eq
  rw [List.length_cons] at htop
  have hcell : s.sp - 1 = base + τ.syms.length + vs.length := by omega
  rw [vmExec, if_neg (by omega), hcell, h.piled.1]

theorem Cells.exec_pop (h : Cells τ s.stack base E (v :: vs) s.sp) :
    vmExec reg env s f .pop = .ok (s.popped 1) := by
  have htop := h.top_eq
  rw [List.length_cons] at htop
  rw [vmExec, if_neg (by omega)]
  rfl

theorem Cells.exec_load {x : Name} {k : ℕ} (h : Cells τ s.stack f.vbase E vs s.sp)
    (hlocals : f.nlocals = τ.syms.length) (hk : resolveVar τ.syms x = some k) :
    vmExec reg env s f (.load k) = vmPush s (E x) := by
  have hlt := resolveVar_lt hk
  have hcell : s.stack (f.vbase + k) = E x := h.holds x k hk
  rw [vmExec, if_neg (by omega), hcell]

theorem Cells.exec_store {x : Name} {k : ℕ} (h : Cells τ s.stack f.vbase E (v :: vs) s.sp)
    (hlocals : f.nlocals = τ.syms.length) (hk : resolveVar τ.syms x = some k) :
    vmExec reg env s f (.store k) =
      .ok { s.popped 1 with stack := Function.update s.stack (f.vbase + k) v } := by
  have hlt := resolveVar_lt hk
  rw [vmExec, h.vmPop_eq]
  simp only [bind, Except.bind]
  rw [if_neg (by omega)]
  rfl

theorem Cells.exec_bin {op : BinOp} {a b : U64} (h : Cells τ s.stack base E (b :: a :: vs) s.sp) :
    vmExec reg env s f (.bin op) = (evalBin true op a b).mapError Abort.stop >>=
      vmPush ((s.popped 1).popped 1) := by
  rw [vmExec, h.vmPop_eq, ← vmBin_eq]
  simp only [bind, Except.bind]
  rw [h.lands.pop.cells.vmPop_eq]

theorem Cells.exec_un {op : UnOp} {a : U64} (h : Cells τ s.stack base E (a :: vs) s.sp) :
    vmExec reg env s f op.instr = vmPush (s.popped 1) (op.value a) := by
  cases op with
  | neg =>
    rw [UnOp.instr, vmExec, h.vmPop_eq]
    rfl
  | not =>
    have hword : boolWord (a == 0) = UnOp.not.value a := boolWord_decide _ _ beq_iff_eq
    rw [UnOp.instr, vmExec, h.vmPop_eq, ← hword]
    rfl
  | bnot =>
    rw [UnOp.instr, vmExec, h.vmPop_eq]
    rfl

theorem Cells.exec_jmpf {t : ℕ} (h : Cells τ s.stack base E (v :: vs) s.sp) :
    vmExec reg env s f (.jmpf t) =
      .ok (if v = 0 then (s.popped 1).setPc t else s.popped 1) := by
  rw [vmExec, h.vmPop_eq]
  rfl

theorem Cells.exec_jmpt {t : ℕ} (h : Cells τ s.stack base E (v :: vs) s.sp) :
    vmExec reg env s f (.jmpt t) =
      .ok (if v ≠ 0 then (s.popped 1).setPc t else s.popped 1) := by
  rw [vmExec, h.vmPop_eq]
  rfl

/-- The arguments of a call are the topmost values. -/
theorem Cells.topWords_eq {args : List U64}
    (h : Cells τ s.stack base E (args.reverse ++ vs) s.sp) : topWords s args.length = args := by
  have htop := h.top_eq
  rw [List.length_append, List.length_reverse] at htop
  have hbase : s.sp - args.length = base + τ.syms.length + vs.length := by omega
  apply List.ext_getElem?
  intro k
  rw [topWords, List.getElem?_map, hbase]
  by_cases hk : k < args.length
  · rw [List.getElem?_range hk, List.getElem?_eq_getElem hk, Option.map_some,
      h.piled.append.1 k _ (List.getElem?_eq_getElem hk)]
  · rw [List.getElem?_eq_none (by rwa [List.length_range, ← Nat.not_lt]),
      List.getElem?_eq_none (Nat.le_of_not_lt hk), Option.map_none]

/-- A call of a builtin. -/
theorem Cells.exec_builtin {args : List U64} {si index : ℕ} {x : Name} {callee : NocFn}
    (h : Cells τ s.stack base E (args.reverse ++ vs) s.sp) (hname : f.fn.strings[si]? = some x)
    (hcallee : nocLookup reg x = some callee) (hindex : callee.builtin = some index) :
    vmExec reg env s f (.call si args.length) =
      match env.builtins s.iters index args with
      | none => .error (.error .builtinFailed)
      | some ret => vmPush (s.popped args.length) ret := by
  have htop := h.top_eq
  rw [List.length_append, List.length_reverse] at htop
  simp only [vmExec, vmCall, hname, hcallee, hindex, h.topWords_eq]
  rw [if_neg (by omega)]
  rfl

/-- A call of a function of the session. -/
theorem Cells.exec_enter {args : List U64} {si : ℕ} {x : Name} {callee : NocFn}
    (h : Cells τ s.stack base E (args.reverse ++ vs) s.sp) (hname : f.fn.strings[si]? = some x)
    (hcallee : nocLookup reg x = some callee) (hcode : callee.builtin = none) :
    vmExec reg env s f (.call si args.length) = vmEnter s callee args.length := by
  have htop := h.top_eq
  rw [List.length_append, List.length_reverse] at htop
  simp only [vmExec, vmCall, hname, hcallee, hcode]
  rw [if_neg (by omega)]

/-! ### Things that have no parts -/

/-- The code of a frame is that of an image. -/
structure Frame.Runs (f : Frame) (τ : Image) : Prop where
  code : f.code = τ.code
  strings : f.fn.strings = τ.strings
  nlocals : f.nlocals = τ.syms.length

theorem exists_cons_cons (h : 2 ≤ vs.length) : ∃ b a vs', vs = b :: a :: vs' := by
  match vs, h with
  | b :: a :: vs', _ => exact ⟨b, a, vs', rfl⟩

/-- The instruction of a thing that has no parts, other than a call, acts on the cells. -/
theorem TodoAt.exec_acts {t : Todo} (ht : TodoAt τ t p q) (hparts : t.parts = none)
    (hcall : ∀ g count, t ≠ .call g count) (hf : f.Runs τ) (henv : o.Allows env)
    (hcells : Cells τ s.stack f.vbase E vs s.sp) (hfull : s.sp ≤ nocStackSize)
    (hops : ∀ i, InstrAt τ.code p i q → i.operands ≤ vs.length)
    (hexec : ∀ i, InstrAt τ.code p i q → vmExec reg env s f i = .ok s') :
    ∃ E' vs', Acts o reg t E vs E' vs' ∧ Lands τ f.vbase s s' E' vs' ∧ s'.sp ≤ nocStackSize := by
  have hpush : ∀ {s₁ : VmState} {E' vs'}, Lands τ f.vbase s s₁ E' vs' → ∀ v,
      vmPush s₁ v = .ok s' → Lands τ f.vbase s s' E' (v :: vs') ∧ s'.sp ≤ nocStackSize := by
    intro s₁ E' vs' hlands v h
    obtain ⟨hroom, rfl⟩ := vmPush_eq_ok_iff.mp h
    exact ⟨hlands.push v, hroom⟩
  cases t with
  | expr known e =>
    obtain ⟨reg₀, -, he⟩ := ht
    cases e with
    | lit v => exact ⟨E, v :: vs, .lit, hpush hcells.lands v (hexec _ he)⟩
    | str x =>
      obtain ⟨si, hsi, hi⟩ := he
      rw [← hf.strings] at hsi
      have hlt := (List.getElem?_eq_some_iff.mp hsi).1
      have h := hexec _ hi
      rw [vmExec, if_neg (Nat.not_le_of_lt hlt)] at h
      exact ⟨E, _, .str (henv.addresses f.fn si x hsi), hpush hcells.lands _ h⟩
    | var x =>
      obtain ⟨k, hk, hi⟩ := he
      have h := hexec _ hi
      rw [hcells.exec_load hf.nlocals hk] at h
      exact ⟨E, _, .var, hpush hcells.lands _ h⟩
    | assign op x a =>
      rw [Todo.parts, exprParts] at hparts
      cases hop : op.binOp with
      | none => simp only [hop] at hparts; cases hparts
      | some bin => simp only [hop] at hparts; cases hparts
    | _ => cases hparts
  | dup =>
    obtain ⟨v, vs, rfl⟩ := List.exists_cons_of_length_pos (hops _ ht)
    have h := hexec _ ht
    rw [hcells.exec_dup] at h
    exact ⟨E, _, .dup, hpush hcells.lands _ h⟩
  | drop =>
    obtain ⟨v, vs, rfl⟩ := List.exists_cons_of_length_pos (hops _ ht)
    have h := hexec _ ht
    rw [hcells.exec_pop] at h
    obtain rfl := Except.ok.inj h
    exact ⟨E, vs, .drop, hcells.lands.pop, (Nat.sub_le _ _).trans hfull⟩
  | store x =>
    obtain ⟨k, hk, hi⟩ := ht
    obtain ⟨v, vs, rfl⟩ := List.exists_cons_of_length_pos (hops _ hi)
    have h := hexec _ hi
    rw [hcells.exec_store hf.nlocals hk] at h
    obtain rfl := Except.ok.inj h
    exact ⟨_, vs, .store, hcells.lands.pop.store hk v, (Nat.sub_le _ _).trans hfull⟩
  | bin op =>
    obtain ⟨b, a, vs, rfl⟩ := exists_cons_cons (hops _ ht)
    have h := hexec _ ht
    rw [hcells.exec_bin] at h
    obtain ⟨r, hr, h⟩ := exists_of_bind_eq_ok h
    cases heval : evalBin true op a b with
    | error e =>
      rw [heval] at hr
      cases hr
    | ok w =>
      rw [heval] at hr
      obtain rfl := Except.ok.inj hr
      exact ⟨E, _, .bin heval, hpush hcells.lands.pop.pop _ h⟩
  | un op =>
    have hone : op.instr.operands = 1 := by cases op <;> rfl
    have hlen := hops _ ht
    rw [hone] at hlen
    obtain ⟨a, vs, rfl⟩ := List.exists_cons_of_length_pos hlen
    have h := hexec _ ht
    rw [hcells.exec_un] at h
    exact ⟨E, _, .un, hpush hcells.lands.pop _ h⟩
  | call g count => exact absurd rfl (hcall g count)
  | stmt known syms s => cases hparts
  | loop known syms c post body => cases hparts
  | branch yes no => exact absurd ht id
  | ret => exact absurd ht id

/-- A call of a builtin acts on the cells. -/
theorem TodoAt.exec_builtin {args : List U64} {x : Name} {callee : NocFn} {index : ℕ}
    (ht : TodoAt τ (.call x args.length) p q) (hf : f.Runs τ) (henv : o.Allows env)
    (hcells : Cells τ s.stack f.vbase E (args.reverse ++ vs) s.sp)
    (hcallee : nocLookup reg x = some callee) (hindex : callee.builtin = some index)
    (hexec : ∀ i, InstrAt τ.code p i q → vmExec reg env s f i = .ok s') :
    ∃ v, o.answers index args v ∧ Lands τ f.vbase s s' E (v :: vs) ∧ s'.sp ≤ nocStackSize := by
  obtain ⟨si, hsi, hi⟩ := ht
  rw [← hf.strings] at hsi
  have h := hexec _ hi
  rw [hcells.exec_builtin hsi hcallee hindex] at h
  split at h
  · cases h
  · rename_i v hv
    obtain ⟨hroom, rfl⟩ := vmPush_eq_ok_iff.mp h
    exact ⟨v, henv.answers _ _ _ _ hv, hcells.lands.popList.push v, hroom⟩

/-- What acts on the cells is done by its instruction, given room and the right answers. -/
theorem Acts.exec {t : Todo} (h : Acts o reg t E vs E' vs') (ht : TodoAt τ t p q) (hf : f.Runs τ)
    (hcells : Cells τ s.stack f.vbase E vs s.sp)
    (hroom : f.vbase + τ.syms.length + vs'.length ≤ nocStackSize) :
    ∃ env i s', o.Allows env ∧ (∀ n, env.kbd n = false) ∧ InstrAt τ.code p i q ∧
      vmExec reg env s f i = .ok s' ∧ Lands τ f.vbase s s' E' vs' := by
  have htop := hcells.top_eq
  obtain ⟨env, henv, hkbd⟩ := o.exists_allowed
  cases h with
  | lit =>
    obtain ⟨reg₀, -, hi⟩ := ht
    rw [List.length_cons] at hroom
    exact ⟨env, _, _, henv, hkbd, hi, vmPush_eq_ok_iff.mpr ⟨by omega, rfl⟩, hcells.lands.push _⟩
  | str haddress =>
    obtain ⟨reg₀, -, si, hsi, hi⟩ := ht
    obtain ⟨address, hall, rfl⟩ := o.exists_addresses haddress
    rw [← hf.strings] at hsi
    have hlt := (List.getElem?_eq_some_iff.mp hsi).1
    rw [List.length_cons] at hroom
    refine ⟨steadyEnv address fun _ _ ↦ none, _, _, o.allows_steadyEnv hall nofun, fun _ ↦ rfl, hi,
      ?_, hcells.lands.push _⟩
    rw [vmExec, if_neg (Nat.not_le_of_lt hlt), strAddr_steadyEnv hsi]
    exact vmPush_eq_ok_iff.mpr ⟨by omega, rfl⟩
  | var =>
    obtain ⟨reg₀, -, k, hk, hi⟩ := ht
    rw [List.length_cons] at hroom
    refine ⟨env, _, _, henv, hkbd, hi, ?_, hcells.lands.push _⟩
    rw [hcells.exec_load hf.nlocals hk]
    exact vmPush_eq_ok_iff.mpr ⟨by omega, rfl⟩
  | dup =>
    rw [List.length_cons] at hroom htop
    refine ⟨env, _, _, henv, hkbd, ht, ?_, hcells.lands.push _⟩
    rw [hcells.exec_dup]
    exact vmPush_eq_ok_iff.mpr ⟨by rw [List.length_cons] at hroom; omega, rfl⟩
  | drop => exact ⟨env, _, _, henv, hkbd, ht, hcells.exec_pop, hcells.lands.pop⟩
  | store =>
    obtain ⟨k, hk, hi⟩ := ht
    exact ⟨env, _, _, henv, hkbd, hi, hcells.exec_store hf.nlocals hk, hcells.lands.pop.store hk _⟩
  | bin heval =>
    rw [List.length_cons] at hroom
    rw [List.length_cons, List.length_cons] at htop
    refine ⟨env, _, _, henv, hkbd, ht, ?_, hcells.lands.pop.pop.push _⟩
    rw [hcells.exec_bin, heval]
    refine vmPush_eq_ok_iff.mpr ⟨?_, rfl⟩
    change s.sp - 1 - 1 < nocStackSize
    omega
  | un =>
    rw [List.length_cons] at hroom htop
    refine ⟨env, _, _, henv, hkbd, ht, ?_, hcells.lands.pop.push _⟩
    rw [hcells.exec_un]
    refine vmPush_eq_ok_iff.mpr ⟨?_, rfl⟩
    change s.sp - 1 < nocStackSize
    omega
  | @builtin x callee index args v E vs hcallee hindex hanswer =>
    obtain ⟨si, hsi, hi⟩ := ht
    rw [← hf.strings] at hsi
    rw [List.length_cons] at hroom
    rw [List.length_append, List.length_reverse] at htop
    choose address haddress using o.exists_address
    refine ⟨steadyEnv address fun i as ↦ if i = index ∧ as = args then some v else none, _, _,
      o.allows_steadyEnv haddress ?_, fun _ ↦ rfl, hi, ?_, hcells.lands.popList.push v⟩
    · intro i as w hw
      split_ifs at hw with hsame
      obtain ⟨rfl, rfl⟩ := hsame
      obtain rfl := Option.some.inj hw
      exact hanswer
    · rw [hcells.exec_builtin hsi hcallee hindex]
      simp only [steadyEnv, and_self, if_true]
      refine vmPush_eq_ok_iff.mpr ⟨?_, rfl⟩
      change s.sp - args.length < nocStackSize
      omega

end NoOsKernel.Noc
