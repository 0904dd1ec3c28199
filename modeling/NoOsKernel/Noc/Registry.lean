import NoOsKernel.Noc.Ast

/-!
# The function table

The functions a session knows: `noc_fn`, the table `noc_funcs` and its operations in
`kernel/noc/vm.c`. A name is looked up without regard to letter case and registered with regard to
it, so the first entry that matches wins. Nothing ever leaves the table: an entry is only replaced
by one of the same name.
-/

set_option autoImplicit false
set_option relaxedAutoImplicit false

namespace NoOsKernel.Noc

open Lib

/-- The limits of `noc.h`. -/
def nocMaxLocals : ℕ := 64
def nocMaxStrings : ℕ := 64
def nocMaxFuncs : ℕ := 128

/-- `noc_fn`. A function without `builtin` has code; `defaults` has one entry for each parameter. -/
structure NocFn where
  name : Name
  code : Option (List Byte)
  strings : List Name
  nargs : ℕ
  nlocals : ℕ
  retType : NType
  defaults : List (Option U64)
  builtin : Option ℕ
  variadic : Bool
  lastExpr : Bool

/-- `noc_funcs`, up to `noc_nfuncs`. -/
abbrev Registry := List NocFn

/-- A string of the source. -/
def cstr (s : String) : Name := s.toList.map fun c ↦ BitVec.ofNat 8 c.toNat

/-- A character as `noc_name_eq` compares it. -/
def lowerByte (c : Byte) : Byte := if 65 ≤ c.toNat ∧ c.toNat ≤ 90 then c - 65 + 97 else c

/-- `noc_name_eq`. -/
def nocNameEq : Name → Name → Bool
  | a :: as, b :: bs => if lowerByte a ≠ lowerByte b then false else nocNameEq as bs
  | [], [] => true
  | _, _ => false

/-- `noc_lookup`. -/
def nocLookup (reg : Registry) (name : Name) : Option NocFn :=
  reg.find? fun f ↦ nocNameEq f.name name

/-- `noc_register_user_fn`: the entry of that name is replaced, a new one goes to the end. -/
def nocRegisterUserFn (reg : Registry) (f : NocFn) : Option Registry :=
  match reg.findIdx? fun old ↦ decide (old.name = f.name) with
  | some i => some (reg.set i f)
  | none => if reg.length < nocMaxFuncs then some (reg ++ [f]) else none

/-! ### Operating system -/

/-- What the language takes from `noc_os.h` to compile a line: whether the `k`-th allocation of the
line succeeds for a size. No machine has more memory than the gigabyte its frame bitmap covers. -/
structure NocOs where
  alloc : ℕ → ℕ → Bool
  alloc_le : ∀ k n, alloc k n = true → n ≤ 2 ^ 30

/-- The size of `noc_fn`. -/
def nocFnSize : ℕ := 712

/-! ### Builtins -/

/-- An entry of `noc_builtins`, without its function. -/
structure NocBuiltin where
  name : Name
  retType : NType
  nargs : ℕ
  variadic : Bool

/-- The part of `noc_builtins` that every build has. -/
def sharedBuiltins : List NocBuiltin :=
  [⟨cstr "Print", .void, 1, true⟩, ⟨cstr "PrintLn", .void, 1, true⟩, ⟨cstr "Time", .i64, 0, false⟩,
    ⟨cstr "Sleep", .void, 1, false⟩, ⟨cstr "KeyGet", .i64, 0, false⟩,
    ⟨cstr "KeyPressed", .i64, 0, false⟩, ⟨cstr "Alloc", .str, 1, false⟩,
    ⟨cstr "Free", .void, 1, false⟩, ⟨cstr "MemSet", .void, 3, false⟩,
    ⟨cstr "MemCpy", .void, 3, false⟩, ⟨cstr "Len", .i64, 1, false⟩,
    ⟨cstr "PageFault", .i64, 1, false⟩, ⟨cstr "ModelBudget", .i64, 1, false⟩,
    ⟨cstr "ModelCommit", .i64, 1, false⟩, ⟨cstr "ModelTouch", .i64, 1, false⟩,
    ⟨cstr "ModelEvict", .i64, 1, false⟩, ⟨cstr "ModelStats", .i64, 0, false⟩,
    ⟨cstr "SwapOut", .i64, 1, false⟩, ⟨cstr "SwapInfo", .void, 0, false⟩,
    ⟨cstr "Help", .void, 0, false⟩]

/-- The part of `noc_builtins` that only the kernel has. -/
def kernelBuiltins : List NocBuiltin :=
  [⟨cstr "Echo", .void, 1, false⟩, ⟨cstr "Version", .void, 0, false⟩,
    ⟨cstr "MemInfo", .void, 0, false⟩, ⟨cstr "FaultTest", .void, 0, false⟩,
    ⟨cstr "Reboot", .void, 0, false⟩, ⟨cstr "Spawn", .i64, 1, false⟩,
    ⟨cstr "Ps", .void, 0, false⟩, ⟨cstr "Demo", .void, 0, false⟩,
    ⟨cstr "SaveFile", .void, 2, false⟩, ⟨cstr "ReadFile", .str, 1, false⟩,
    ⟨cstr "DeleteFile", .void, 1, false⟩, ⟨cstr "ListDir", .void, 0, false⟩,
    ⟨cstr "StatFile", .void, 1, false⟩, ⟨cstr "FormatDisk", .void, 0, false⟩,
    ⟨cstr "Run", .void, 1, false⟩, ⟨cstr "Predict", .void, 0, false⟩,
    ⟨cstr "Hist", .void, 0, false⟩, ⟨cstr "ClearHist", .void, 0, false⟩,
    ⟨cstr "PgPred", .void, 0, false⟩, ⟨cstr "PgPredClear", .void, 0, false⟩,
    ⟨cstr "ModelInfo", .void, 0, false⟩, ⟨cstr "LogInfo", .void, 0, false⟩,
    ⟨cstr "LogDump", .void, 0, false⟩, ⟨cstr "LogSave", .void, 0, false⟩,
    ⟨cstr "LogClear", .void, 0, false⟩, ⟨cstr "Train", .void, 0, false⟩,
    ⟨cstr "TrainIdle", .void, 1, false⟩, ⟨cstr "TrainReset", .void, 0, false⟩,
    ⟨cstr "PredictBigram", .void, 1, false⟩, ⟨cstr "DraftRun", .i64, 1, false⟩,
    ⟨cstr "CorpusInfo", .void, 0, false⟩, ⟨cstr "CorpusRollback", .void, 0, false⟩,
    ⟨cstr "TransInfo", .void, 0, false⟩, ⟨cstr "TransMem", .void, 1, false⟩,
    ⟨cstr "TransConfig", .void, 2, false⟩, ⟨cstr "TransPredict", .i64, 1, false⟩,
    ⟨cstr "TransTrain", .i64, 2, true⟩, ⟨cstr "TransEval", .i64, 0, false⟩,
    ⟨cstr "TransReset", .void, 0, false⟩, ⟨cstr "TransIdle", .void, 1, false⟩]

/-- `noc_builtins` of the kernel (`user = false`) and of a ring-3 process. -/
def nocBuiltins (user : Bool) : List NocBuiltin :=
  if user then sharedBuiltins else sharedBuiltins ++ kernelBuiltins

/-- The function a builtin registers. -/
def builtinFn (b : NocBuiltin) (index : ℕ) : NocFn where
  name := b.name
  code := none
  strings := []
  nargs := b.nargs
  nlocals := 0
  retType := b.retType
  defaults := List.replicate b.nargs none
  builtin := some index
  variadic := b.variadic
  lastExpr := false

/-- `noc_register_builtin` as the `index`-th step of `noc_init`, which ignores its failure: nothing
is registered when one of the two allocations fails or the table is full. -/
def nocRegisterBuiltin (os : NocOs) (reg : Registry) (b : NocBuiltin) (index : ℕ) : Registry :=
  if os.alloc (2 * index) nocFnSize && os.alloc (2 * index + 1) (b.name.length + 1) then
    (nocRegisterUserFn reg (builtinFn b index)).getD reg
  else reg

/-- The loop of `noc_init`. -/
def nocInitFrom (os : NocOs) : Registry → ℕ → List NocBuiltin → Registry
  | reg, _, [] => reg
  | reg, i, b :: bs => nocInitFrom os (nocRegisterBuiltin os reg b i) (i + 1) bs

/-- `noc_init`, which starts a session. -/
def nocInit (os : NocOs) (user : Bool) : Registry := nocInitFrom os [] 0 (nocBuiltins user)

/-! ### Known names -/

/-- A lookup of the name finds some function. -/
def Known (reg : Registry) (name : Name) : Prop := ∃ f ∈ reg, nocNameEq f.name name = true

variable {reg reg' : Registry} {f : NocFn} {name : Name}

theorem nocNameEq_refl (name : Name) : nocNameEq name name = true := by
  induction name with
  | nil => rfl
  | cons a as ih => rw [nocNameEq, if_neg (not_not.mpr rfl), ih]

theorem known_iff : Known reg name ↔ ∃ f, nocLookup reg name = some f := by
  rw [nocLookup, ← Option.isSome_iff_exists, List.find?_isSome]
  rfl

theorem mem_of_nocLookup (h : nocLookup reg name = some f) : f ∈ reg :=
  List.mem_of_find?_eq_some h

/-- A registration keeps every other entry or replaces it by the function of its name. -/
theorem mem_of_register (h : nocRegisterUserFn reg f = some reg') {g : NocFn} (hg : g ∈ reg') :
    g = f ∨ g ∈ reg := by
  unfold nocRegisterUserFn at h
  split at h
  · obtain rfl := Option.some.inj h
    rcases List.mem_or_eq_of_mem_set hg with hold | hnew
    · exact Or.inr hold
    · exact Or.inl hnew
  · split_ifs at h with hroom
    obtain rfl := Option.some.inj h
    rcases List.mem_append.mp hg with hold | hnew
    · exact Or.inr hold
    · exact Or.inl (List.mem_singleton.mp hnew)

/-- Names stay known. -/
theorem known_of_register (h : nocRegisterUserFn reg f = some reg') (hname : Known reg name) :
    Known reg' name := by
  obtain ⟨g, hg, heq⟩ := hname
  unfold nocRegisterUserFn at h
  split at h
  · rename_i i hi
    obtain rfl := Option.some.inj h
    obtain ⟨hlt, hsame, -⟩ := List.findIdx?_eq_some_iff_getElem.mp hi
    obtain ⟨j, hj, rfl⟩ := List.getElem_of_mem hg
    by_cases hij : i = j
    · subst hij
      refine ⟨f, List.mem_set hlt f, ?_⟩
      rw [← of_decide_eq_true hsame]
      exact heq
    · refine ⟨reg[j], ?_, heq⟩
      have hlen : j < (reg.set i f).length := by rwa [List.length_set]
      rw [← List.getElem_set_ne hij (a := f) hlen]
      exact List.getElem_mem hlen
  · split_ifs at h with hroom
    obtain rfl := Option.some.inj h
    exact ⟨g, List.mem_append_left _ hg, heq⟩

end NoOsKernel.Noc
