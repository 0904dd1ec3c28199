import Mathlib.Data.List.Nodup
import NoOsKernel.Lib.KeyedList
import NoOsKernel.Noc.Session

/-!
# The function table as pointers

`noc_funcs` holds pointers: whoever looks a function up gets the object itself, and a registration
under a name that is there frees the object it replaces. `FnTable` keeps the objects apart by the
order of their allocation. The values of its objects are the `Registry` the compiler and the machine
read (`FnTable.registry`).
-/

set_option autoImplicit false
set_option relaxedAutoImplicit false

namespace NoOsKernel.Noc

open Lib

/-- An allocated `noc_fn`; no two allocations have the same `id`. -/
structure FnObj where
  id : ℕ
  fn : NocFn

/-- `noc_lookup`. -/
def lookupObj (objs : List FnObj) (name : Name) : Option FnObj :=
  objs.find? fun o ↦ nocNameEq o.fn.name name

/-- `noc_register_user_fn`: the table behind it and the object it frees. -/
def registerObj (objs : List FnObj) (o : FnObj) : Option (List FnObj × Option FnObj) :=
  match objs.findIdx? fun old ↦ decide (old.fn.name = o.fn.name) with
  | some i => some (objs.set i o, objs[i]?)
  | none => if objs.length < nocMaxFuncs then some (objs ++ [o], none) else none

/-! ### Names -/

/-- The names differ only in letter case. -/
def SameName (a b : Name) : Prop := a.map lowerByte = b.map lowerByte

theorem nocNameEq_iff {a b : Name} : nocNameEq a b = true ↔ SameName a b := by
  induction a generalizing b with
  | nil =>
    cases b with
    | nil => exact ⟨fun _ ↦ rfl, fun _ ↦ rfl⟩
    | cons y b => exact iff_of_false (by rintro ⟨⟩) (by rintro ⟨⟩)
  | cons x a ih =>
    cases b with
    | nil => exact iff_of_false (by rintro ⟨⟩) (by rintro ⟨⟩)
    | cons y b =>
      rw [nocNameEq, SameName, List.map_cons, List.map_cons, List.cons.injEq]
      by_cases hhead : lowerByte x = lowerByte y
      · rw [if_neg (not_not.mpr hhead), ih]
        exact ⟨fun htail ↦ ⟨hhead, htail⟩, fun hboth ↦ hboth.2⟩
      · rw [if_pos hhead]
        exact iff_of_false (by rintro ⟨⟩) fun hboth ↦ hhead hboth.1

theorem nocNameEq_congr (a b c : Name) (h : nocNameEq a b = true) :
    nocNameEq c a = nocNameEq c b := by
  have hab : SameName a b := nocNameEq_iff.mp h
  rw [Bool.eq_iff_iff, nocNameEq_iff, nocNameEq_iff]
  unfold SameName at hab ⊢
  rw [hab]

/-! ### Registration and lookup -/

/-- The table is full and has no function of that spelling. -/
def TableFull (objs : List FnObj) (name : Name) : Prop :=
  nocMaxFuncs ≤ objs.length ∧ ∀ g ∈ objs, g.fn.name ≠ name

/-- A function that `noc_register_user_fn` has accepted is found under its name in every letter
case, and every other name finds what it found before. -/
def Registered (objs objs' : List FnObj) (o : FnObj) : Prop :=
  (∀ name, SameName o.fn.name name → lookupObj objs' name = some o) ∧
    ∀ name, ¬ SameName o.fn.name name → lookupObj objs' name = lookupObj objs name

variable {objs : List FnObj} {o g : FnObj} {r : List FnObj × Option FnObj} {name : Name}

/-- What a registration does: it replaces the first object of that spelling or appends. -/
theorem registerObj_cases (h : registerObj objs o = some r) :
    (∃ i old, objs[i]? = some old ∧ old.fn.name = o.fn.name ∧ r = (objs.set i o, some old)) ∨
      objs.length < nocMaxFuncs ∧ (∀ g ∈ objs, g.fn.name ≠ o.fn.name) ∧ r = (objs ++ [o], none) := by
  unfold registerObj at h
  split at h
  · rename_i i hi
    obtain ⟨hlt, hsame, -⟩ := List.findIdx?_eq_some_iff_getElem.mp hi
    rw [List.getElem?_eq_getElem hlt] at h
    exact Or.inl ⟨i, _, List.getElem?_eq_getElem hlt, of_decide_eq_true hsame,
      (Option.some.inj h).symm⟩
  · rename_i hnone
    split_ifs at h with hroom
    refine Or.inr ⟨hroom, fun g hg ↦ ?_, (Option.some.inj h).symm⟩
    exact of_decide_eq_false (List.findIdx?_eq_none_iff.mp hnone g hg)

theorem registerObj_eq_some (h : registerObj objs o = some r) :
    r.1 = keyedPut (fun g : FnObj ↦ g.fn.name) objs o := by
  unfold registerObj at h
  unfold keyedPut
  split at h
  · rename_i i hi
    rw [hi]
    exact congrArg Prod.fst (Option.some.inj h).symm
  · rename_i hnone
    split_ifs at h with hroom
    rw [hnone]
    exact congrArg Prod.fst (Option.some.inj h).symm

theorem registerObj_eq_none : registerObj objs o = none ↔ TableFull objs o.fn.name := by
  constructor
  · intro hnone
    unfold registerObj at hnone
    split at hnone
    · cases hnone
    · rename_i hnew
      split_ifs at hnone with hroom
      refine ⟨Nat.le_of_not_lt hroom, fun g hg ↦ ?_⟩
      exact of_decide_eq_false (List.findIdx?_eq_none_iff.mp hnew g hg)
  · intro hfull
    by_contra hsome
    obtain ⟨r, hr⟩ := Option.ne_none_iff_exists'.mp hsome
    rcases registerObj_cases hr with ⟨i, old, hold, hname, -⟩ | ⟨hroom, -, -⟩
    · exact hfull.2 old (List.mem_of_getElem? hold) hname
    · exact absurd hroom (Nat.not_lt_of_le hfull.1)

theorem registered_of_first (h : registerObj objs o = some r)
    (hfirst : ∀ g, lookupObj objs o.fn.name = some g → g.fn.name = o.fn.name) :
    Registered objs r.1 o := by
  rw [registerObj_eq_some h]
  constructor
  · intro name hname
    refine keyedFind_keyedPut_self nocNameEq_congr ?_ hfirst
    exact nocNameEq_iff.mpr hname
  · intro name hname
    refine keyedFind_keyedPut_of_not ?_
    exact Bool.eq_false_iff.mpr fun heq ↦ hname (nocNameEq_iff.mp heq)

theorem not_registered_of_shadowed (h : registerObj objs o = some r)
    (hfound : lookupObj objs o.fn.name = some g) (hname : g.fn.name ≠ o.fn.name) :
    ¬ Registered objs r.1 o := by
  rintro ⟨hself, -⟩
  have hnew := hself o.fn.name rfl
  have hold : lookupObj r.1 o.fn.name = some g := by
    rw [registerObj_eq_some h]
    exact keyedFind_keyedPut_shadowed nocNameEq_refl hfound hname
  rw [hold] at hnew
  exact hname (congrArg (fun u ↦ u.fn.name) (Option.some.inj hnew))

/-- A registration that succeeds leaves its function to be found, exactly where the name found
nothing or a function of the same spelling before; a full table accepts no new spelling. -/
theorem register_lookup_agree (objs : List FnObj) (o : FnObj) :
    (∀ r, registerObj objs o = some r → Registered objs r.1 o) ↔
      (∀ g, lookupObj objs o.fn.name = some g → g.fn.name = o.fn.name) ∨
        TableFull objs o.fn.name := by
  constructor
  · intro hreg
    by_contra hcon
    push Not at hcon
    obtain ⟨⟨g, hfound, hname⟩, hroom⟩ := hcon
    cases hresult : registerObj objs o with
    | none => exact hroom (registerObj_eq_none.mp hresult)
    | some r => exact not_registered_of_shadowed hresult hfound hname (hreg r hresult)
  · rintro (hfirst | hfull) r hr
    · exact registered_of_first hr hfirst
    · rw [registerObj_eq_none.mpr hfull] at hr
      cases hr

/-! ### Tables of objects -/

/-- The function table with what has become of all its objects. -/
structure FnTable where
  objs : List FnObj
  released : List ℕ
  fresh : ℕ
  objs_lt : ∀ o ∈ objs, o.id < fresh
  released_lt : ∀ i ∈ released, i < fresh
  live : ∀ o ∈ objs, o.id ∉ released
  distinct : (objs.map FnObj.id).Nodup

/-- What the compiler and the machine read of a table. -/
def FnTable.registry (t : FnTable) : Registry := t.objs.map FnObj.fn

/-- The table before `noc_init`. -/
def FnTable.empty : FnTable where
  objs := []
  released := []
  fresh := 0
  objs_lt := fun _ ho ↦ absurd ho List.not_mem_nil
  released_lt := fun _ hi ↦ absurd hi List.not_mem_nil
  live := fun _ ho ↦ absurd ho List.not_mem_nil
  distinct := List.nodup_nil

theorem FnTable.mem_register (t : FnTable) {f : NocFn} (h : registerObj t.objs ⟨t.fresh, f⟩ = some r)
    (hg : g ∈ r.1) : g = ⟨t.fresh, f⟩ ∨ g ∈ t.objs ∧ ∀ old, r.2 = some old → g.id ≠ old.id := by
  rcases registerObj_cases h with ⟨i, old, hold, -, rfl⟩ | ⟨-, -, rfl⟩
  · obtain ⟨j, hj⟩ := List.mem_iff_getElem?.mp hg
    rw [List.getElem?_set] at hj
    split_ifs at hj with hij hlt
    · exact Or.inl (Option.some.inj hj).symm
    · refine Or.inr ⟨List.mem_of_getElem? hj, ?_⟩
      rintro _ ⟨⟩ hid
      -- no two objects of the table have the same `id`
      have hi : (t.objs.map FnObj.id)[i]? = some old.id := by rw [List.getElem?_map, hold]; rfl
      have hj' : (t.objs.map FnObj.id)[j]? = some old.id := by
        rw [List.getElem?_map, hj, ← hid]
        rfl
      have hlt := (List.getElem?_eq_some_iff.mp hi).1
      exact hij ((List.getElem?_inj hlt t.distinct).mp (hi.trans hj'.symm))
  · rcases List.mem_append.mp hg with hold | hnew
    · exact Or.inr ⟨hold, nofun⟩
    · exact Or.inl (List.mem_singleton.mp hnew)

/-- A registration of a new object. -/
def FnTable.register (t : FnTable) (f : NocFn) : Option FnTable :=
  match h : registerObj t.objs ⟨t.fresh, f⟩ with
  | none => none
  | some r => some
    { objs := r.1
      released := (r.2.map FnObj.id).toList ++ t.released
      fresh := t.fresh + 1
      objs_lt := by
        intro o ho
        rcases t.mem_register h ho with rfl | ⟨hold, -⟩
        · exact Nat.lt_succ_self t.fresh
        · exact Nat.lt_succ_of_lt (t.objs_lt o hold)
      released_lt := by
        intro i hi
        rcases registerObj_cases h with ⟨j, old, hold, -, rfl⟩ | ⟨-, -, rfl⟩
        · rcases List.mem_cons.mp hi with rfl | hi
          · exact Nat.lt_succ_of_lt (t.objs_lt old (List.mem_of_getElem? hold))
          · exact Nat.lt_succ_of_lt (t.released_lt i hi)
        · exact Nat.lt_succ_of_lt (t.released_lt i hi)
      live := by
        intro o ho hgone
        rcases List.mem_append.mp hgone with hnow | hbefore
        · obtain ⟨old, hold, hid⟩ := Option.map_eq_some_iff.mp (Option.mem_toList.mp hnow)
          rcases t.mem_register h ho with rfl | ⟨-, hne⟩
          · rcases registerObj_cases h with ⟨j, old', hold', -, rfl⟩ | ⟨-, -, rfl⟩
            · obtain rfl := Option.some.inj hold
              have hlt := t.objs_lt old' (List.mem_of_getElem? hold')
              exact absurd hid (Nat.ne_of_lt hlt)
            · cases hold
          · exact hne old hold hid.symm
        · rcases t.mem_register h ho with rfl | ⟨hold, -⟩
          · exact absurd (t.released_lt _ hbefore) (Nat.lt_irrefl _)
          · exact t.live o hold hbefore
      distinct := by
        have hnew : t.fresh ∉ t.objs.map FnObj.id := by
          intro hmem
          obtain ⟨o, ho, hid⟩ := List.mem_map.mp hmem
          exact absurd hid (Nat.ne_of_lt (t.objs_lt o ho))
        rcases registerObj_cases h with ⟨i, old, -, -, rfl⟩ | ⟨-, -, rfl⟩
        · rw [List.map_set]
          exact List.Nodup.set t.distinct hnew
        · rw [List.map_append]
          refine List.nodup_append.mpr ⟨t.distinct, List.pairwise_singleton _ _, ?_⟩
          rintro i hi j hj rfl
          rw [List.mem_singleton.mp hj] at hi
          exact hnew hi }

theorem FnTable.register_eq_some {t t' : FnTable} {f : NocFn} (h : t.register f = some t') :
    ∃ r, registerObj t.objs ⟨t.fresh, f⟩ = some r ∧ t'.objs = r.1 ∧
      t'.released = (r.2.map FnObj.id).toList ++ t.released ∧ t'.fresh = t.fresh + 1 := by
  unfold FnTable.register at h
  split at h
  · cases h
  · rename_i r hr
    obtain rfl := Option.some.inj h
    exact ⟨r, hr, rfl, rfl, rfl⟩

theorem FnTable.register_eq_none {t : FnTable} {f : NocFn} :
    t.register f = none ↔ registerObj t.objs ⟨t.fresh, f⟩ = none := by
  unfold FnTable.register
  split
  · rename_i hnone
    exact ⟨fun _ ↦ hnone, fun _ ↦ rfl⟩
  · rename_i r hr
    refine ⟨nofun, fun hnone ↦ ?_⟩
    cases hr.symm.trans hnone

/-- The values of the objects follow `nocRegisterUserFn`. -/
theorem FnTable.registry_register (t : FnTable) (f : NocFn) :
    (t.register f).map FnTable.registry = nocRegisterUserFn t.registry f := by
  have hvalues : (registerObj t.objs ⟨t.fresh, f⟩).map (fun r ↦ r.1.map FnObj.fn) =
      nocRegisterUserFn t.registry f := by
    unfold registerObj nocRegisterUserFn FnTable.registry
    rw [List.findIdx?_map, List.length_map]
    change _ = match t.objs.findIdx? fun old ↦ decide (old.fn.name = f.name) with
      | some i => _
      | none => _
    cases t.objs.findIdx? fun old ↦ decide (old.fn.name = f.name) with
    | some i => exact congrArg some List.map_set
    | none =>
      simp only
      split_ifs
      · exact congrArg some List.map_append
      · rfl
  rw [← hvalues]
  cases hresult : t.register f with
  | none =>
    rw [FnTable.register_eq_none.mp hresult]
    rfl
  | some t' =>
    obtain ⟨r, hr, hobjs, -, -⟩ := FnTable.register_eq_some hresult
    rw [hr, Option.map_some, FnTable.registry, hobjs]
    rfl

/-- `noc_register_builtin` as the `index`-th step of `noc_init`. -/
def FnTable.registerBuiltin (os : NocOs) (t : FnTable) (b : NocBuiltin) (index : ℕ) : FnTable :=
  if os.alloc (2 * index) nocFnSize && os.alloc (2 * index + 1) (b.name.length + 1) then
    (t.register (builtinFn b index)).getD t
  else t

/-- The loop of `noc_init`. -/
def FnTable.initFrom (os : NocOs) : FnTable → ℕ → List NocBuiltin → FnTable
  | t, _, [] => t
  | t, i, b :: bs => FnTable.initFrom os (t.registerBuiltin os b i) (i + 1) bs

/-- `noc_init`. -/
def FnTable.init (os : NocOs) (user : Bool) : FnTable :=
  FnTable.initFrom os FnTable.empty 0 (nocBuiltins user)

theorem FnTable.registry_initFrom (os : NocOs) (t : FnTable) (i : ℕ) (bs : List NocBuiltin) :
    (FnTable.initFrom os t i bs).registry = nocInitFrom os t.registry i bs := by
  induction bs generalizing t i with
  | nil => rfl
  | cons b bs ih =>
    rw [FnTable.initFrom, nocInitFrom, ih]
    congr 1
    unfold FnTable.registerBuiltin nocRegisterBuiltin
    split_ifs with halloc
    · rw [← t.registry_register]
      cases t.register (builtinFn b i) <;> rfl
    · rfl

theorem FnTable.registry_init (os : NocOs) (user : Bool) :
    (FnTable.init os user).registry = nocInit os user :=
  FnTable.registry_initFrom os FnTable.empty 0 (nocBuiltins user)

/-- The object of `I64 print() { }`, which `noc_init` has not made. -/
def lowerPrint : FnObj where
  id := (FnTable.init ampleOs true).fresh
  fn := userFn .i64 (cstr "print") []
    { CComp.start [] true 0 with code := encode (.push 0) ++ encode .ret }

/-- After `noc_init` a function `print` is accepted, and its name still finds `Print`. -/
theorem register_lookup_disagree_print :
    ∃ r, registerObj (FnTable.init ampleOs true).objs lowerPrint = some r ∧
      (lookupObj r.1 lowerPrint.fn.name).map (fun g ↦ g.fn.name) = some (cstr "Print") ∧
      ¬ Registered (FnTable.init ampleOs true).objs r.1 lowerPrint := by
  have hname : ((registerObj (FnTable.init ampleOs true).objs lowerPrint).bind fun r ↦
      lookupObj r.1 lowerPrint.fn.name).map (fun g ↦ g.fn.name) = some (cstr "Print") := by
    decide +kernel
  cases hresult : registerObj (FnTable.init ampleOs true).objs lowerPrint with
  | none =>
    rw [hresult] at hname
    cases hname
  | some r =>
    rw [hresult] at hname
    refine ⟨r, rfl, hname, fun hreg ↦ ?_⟩
    rw [Option.bind_some, hreg.1 _ rfl] at hname
    exact absurd hname (by decide +kernel)

end NoOsKernel.Noc
