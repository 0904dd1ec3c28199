import NoOsKernel.Noc.Compiler

/-!
# What the compiler's primitives emit

Between two states the compiler only ever adds: code behind the code it has, strings and variables
behind those it has. `Lays c c' ds Q` says that the step from `c` to `c'` adds in this way, declares
`ds`, and that `Q` holds of every image in which the code emitted by the step stands unchanged.
Steps compose with `Lays.andThen`; a jump and the code behind it become one step when the jump is
patched (`jump_lays`), so that back-patching shows in no later statement.
-/

set_option autoImplicit false
set_option relaxedAutoImplicit false

namespace NoOsKernel.Noc

open Lib

/-- The code of a function with the tables that give its immediates a meaning. -/
structure Image where
  code : List Byte
  syms : List (Name × NType)
  strings : List Name
  inFn : Bool

/-! ### Bounds -/

/-- Sizes that fit the immediates of the bytecode. -/
structure Small (c : CComp) : Prop where
  code : c.code.length ≤ 2 ^ 30
  syms : c.syms.length ≤ nocMaxLocals
  strings : c.strings.length ≤ nocMaxStrings

/-- The code is within its buffer and the buffer within memory. -/
structure Bounded (c : CComp) : Prop extends Small c where
  len_le : c.code.length ≤ c.cap
  cap_le : c.cap ≤ 2 ^ 30

theorem le_growCap {fuel ncap need : ℕ} (h : need ≤ ncap * 2 ^ fuel) :
    need ≤ growCap fuel ncap need := by
  induction fuel generalizing ncap with
  | zero => rwa [pow_zero, Nat.mul_one] at h
  | succ fuel ih =>
    rw [growCap]
    split_ifs with hlt
    · refine ih ?_
      rwa [Nat.mul_assoc, ← pow_succ']
    · exact Nat.le_of_not_lt hlt

/-! ### Growing states -/

variable {os : NocOs} {reg : Registry} {c c₁ c₂ c₃ c' : CComp} {ds ds₁ ds₂ : List (Name × NType)}

/-- `c'` adds to `c`, with the variables `ds`. -/
structure Extends (c c' : CComp) (ds : List (Name × NType)) : Prop where
  code : c.code <+: c'.code
  syms : c'.syms = c.syms ++ ds
  resolve : ∀ x s, resolveVar c.syms x = some s → resolveVar c'.syms x = some s
  distinct : (c.syms.map Prod.fst).Nodup → (c'.syms.map Prod.fst).Nodup
  strings : c.strings <+: c'.strings
  inFn : c'.inFn = c.inFn
  lastExpr : c.lastExpr = true → c'.lastExpr = true
  bounded : Bounded c → Bounded c'

theorem Extends.refl (c : CComp) : Extends c c [] where
  code := List.prefix_refl _
  syms := (List.append_nil _).symm
  resolve := fun _ _ h ↦ h
  distinct := id
  strings := List.prefix_refl _
  inFn := rfl
  lastExpr := id
  bounded := id

theorem Extends.trans (h₁ : Extends c c₁ ds₁) (h₂ : Extends c₁ c₂ ds₂) :
    Extends c c₂ (ds₁ ++ ds₂) where
  code := h₁.code.trans h₂.code
  syms := by rw [h₂.syms, h₁.syms, List.append_assoc]
  resolve := fun x s hx ↦ h₂.resolve x s (h₁.resolve x s hx)
  distinct := fun h ↦ h₂.distinct (h₁.distinct h)
  strings := h₁.strings.trans h₂.strings
  inFn := h₂.inFn.trans h₁.inFn
  lastExpr := fun h ↦ h₂.lastExpr (h₁.lastExpr h)
  bounded := fun h ↦ h₂.bounded (h₁.bounded h)

/-- The code between `c` and `c'` stands in the image, and the tables of the image extend those of
`c'`. -/
structure Placed (τ : Image) (c c' : CComp) : Prop where
  code : ∀ i, c.code.length ≤ i → i < c'.code.length → τ.code[i]? = c'.code[i]?
  syms : c'.syms <+: τ.syms
  resolve : ∀ x s, resolveVar c'.syms x = some s → resolveVar τ.syms x = some s
  strings : c'.strings <+: τ.strings
  inFn : τ.inFn = c'.inFn
  small : Small c'

theorem Placed.left {τ : Image} (h : Placed τ c c₂) (h₂ : Extends c₁ c₂ ds₂) : Placed τ c c₁ where
  code := by
    intro i hlo hhi
    rw [h.code i hlo (hhi.trans_le h₂.code.length_le)]
    obtain ⟨bs, hbs⟩ := h₂.code
    rw [← hbs, List.getElem?_append_left hhi]
  syms := (h₂.syms ▸ List.prefix_append _ _).trans h.syms
  resolve := fun x s hx ↦ h.resolve x s (h₂.resolve x s hx)
  strings := h₂.strings.trans h.strings
  inFn := h.inFn.trans h₂.inFn
  small :=
    { code := h₂.code.length_le.trans h.small.code
      syms := by
        have hle := h.small.syms
        rw [h₂.syms, List.length_append] at hle
        omega
      strings := h₂.strings.length_le.trans h.small.strings }

theorem Placed.right {τ : Image} (h : Placed τ c c₂) (h₁ : Extends c c₁ ds₁) : Placed τ c₁ c₂ :=
  { h with code := fun i hlo hhi ↦ h.code i (h₁.code.length_le.trans hlo) hhi }

/-- The step from `c` to `c'` adds code of which `Q` holds wherever it is placed. -/
def Lays (c c' : CComp) (ds : List (Name × NType)) (Q : Image → Prop) : Prop :=
  Extends c c' ds ∧ ∀ τ, Placed τ c c' → Q τ

variable {Q Q₁ Q₂ : Image → Prop}

theorem Lays.andThen (h₁ : Lays c c₁ ds₁ Q₁) (h₂ : Lays c₁ c₂ ds₂ Q₂) :
    Lays c c₂ (ds₁ ++ ds₂) fun τ ↦ Q₁ τ ∧ Q₂ τ :=
  ⟨h₁.1.trans h₂.1, fun τ hτ ↦ ⟨h₁.2 τ (hτ.left h₂.1), h₂.2 τ (hτ.right h₁.1)⟩⟩

theorem Lays.mono (h : Lays c c' ds Q₁) (hQ : ∀ τ, Q₁ τ → Q₂ τ) : Lays c c' ds Q₂ :=
  ⟨h.1, fun τ hτ ↦ hQ τ (h.2 τ hτ)⟩

theorem Lays.withPlaced (h : Lays c c' ds Q) : Lays c c' ds fun τ ↦ Q τ ∧ Placed τ c c' :=
  ⟨h.1, fun τ hτ ↦ ⟨h.2 τ hτ, hτ⟩⟩

theorem Lays.refl (c : CComp) : Lays c c [] fun _ ↦ True :=
  ⟨Extends.refl c, fun _ _ ↦ trivial⟩

/-! ### Bytes and instructions -/

theorem bufEnsure_spec {extra : ℕ} (h : bufEnsure os c extra = .ok c') :
    ∃ cap nalloc, c' = { c with cap := cap, nalloc := nalloc } ∧
      (c.cap ≤ 2 ^ 30 → c.code.length + extra ≤ cap ∧ cap ≤ 2 ^ 30) := by
  simp only [bufEnsure] at h
  have hpow : c.code.length + extra ≤ 2 ^ (c.code.length + extra) := Nat.lt_two_pow_self.le
  split_ifs at h with hroom hzero halloc halloc
  · obtain rfl := Except.ok.inj h
    exact ⟨c.cap, c.nalloc, rfl, fun hcap ↦ ⟨hroom, hcap⟩⟩
  · obtain rfl := Except.ok.inj h
    refine ⟨_, _, rfl, fun _ ↦ ⟨le_growCap ?_, os.alloc_le _ _ halloc⟩⟩
    exact hpow.trans (Nat.le_mul_of_pos_left _ (by omega))
  · obtain rfl := Except.ok.inj h
    refine ⟨_, _, rfl, fun _ ↦ ⟨le_growCap ?_, os.alloc_le _ _ halloc⟩⟩
    exact hpow.trans (Nat.le_mul_of_pos_left _ (by omega))

theorem emit_spec {bs : List Byte} (h : emit os c bs = .ok c') :
    Extends c c' [] ∧ c'.code = c.code ++ bs := by
  obtain ⟨c₁, hensure, hret⟩ := exists_of_bind_eq_ok h
  obtain ⟨cap, nalloc, rfl, hcap⟩ := bufEnsure_spec hensure
  obtain rfl := Except.ok.inj hret
  refine ⟨?_, rfl⟩
  constructor
  · exact List.prefix_append _ _
  · exact (List.append_nil _).symm
  · exact fun _ _ hx ↦ hx
  · exact id
  · exact List.prefix_refl _
  · rfl
  · exact id
  · intro hb
    obtain ⟨hlen, hle⟩ := hcap hb.cap_le
    have hcode : (c.code ++ bs).length ≤ cap := by rwa [List.length_append]
    exact ⟨⟨hcode.trans hle, hb.syms, hb.strings⟩, hcode, hle⟩

/-- Bytes emitted by a step stand in the image. -/
theorem Placed.bytesAt {τ : Image} (h : Placed τ c c') {bs : List Byte} (post : List Byte)
    (hcode : c'.code = c.code ++ bs ++ post) : BytesAt τ.code (codePc c) bs := by
  intro k hk
  have hlen : c.code.length + k < (c.code ++ bs).length := by
    rw [List.length_append]
    omega
  rw [codePc, h.code _ (by omega) (by rw [hcode, List.length_append]; omega), hcode,
    List.getElem?_append_left hlen, List.getElem?_append_right (by omega), Nat.add_sub_cancel_left]

/-- The bytes of an instruction stand between two states. -/
def Emitted (τ : Image) (c : CComp) (i : Instr) (c' : CComp) : Prop :=
  BytesAt τ.code (codePc c) (encode i) ∧ codePc c' = codePc c + (encode i).length

theorem Emitted.instrAt {τ : Image} {i : Instr} (h : Emitted τ c i c') (hfits : i.Fits) :
    InstrAt τ.code (codePc c) i (codePc c') :=
  ⟨h.1, hfits, h.2⟩

theorem emit_lays (i : Instr) (h : emit os c (encode i) = .ok c') :
    Lays c c' [] fun τ ↦ Emitted τ c i c' := by
  obtain ⟨hext, hcode⟩ := emit_spec h
  refine ⟨hext, fun τ hτ ↦ ⟨hτ.bytesAt [] ?_, ?_⟩⟩
  · rw [hcode, List.append_nil]
  · rw [codePc, hcode, List.length_append, codePc]

/-- An instruction without an immediate that could fail to fit. -/
theorem emit_instr_lays (i : Instr) (hfits : i.Fits) (h : emit os c (encode i) = .ok c') :
    Lays c c' [] fun τ ↦ InstrAt τ.code (codePc c) i (codePc c') :=
  (emit_lays i h).mono fun _ hi ↦ hi.instrAt hfits

/-! ### Jumps -/

/-- The instructions an opcode with a target makes. -/
def IsJump (op : Byte) (i : ℕ → Instr) : Prop :=
  ∀ t, encode (i t) = op :: leBytes 4 t ∧ (t < 2 ^ 32 → (i t).Fits)

theorem isJump_jmp : IsJump opJmp .jmp := fun _ ↦ ⟨rfl, id⟩

theorem isJump_jmpf : IsJump opJmpf .jmpf := fun _ ↦ ⟨rfl, id⟩

theorem isJump_jmpt : IsJump opJmpt .jmpt := fun _ ↦ ⟨rfl, id⟩

/-- The code after a patch of a jump with code behind it. -/
theorem patchJump_code {op : Byte} {t : ℕ} (post : List Byte)
    (hcode : c₃.code = c.code ++ (op :: leBytes 4 0) ++ post) :
    (patchJump c₃ (codePc c) t).code = c.code ++ (op :: leBytes 4 t) ++ post := by
  have hsplit : c₃.code = (c.code ++ [op]) ++ leBytes 4 0 ++ post := by
    rw [hcode, List.append_assoc c.code [op], List.singleton_append]
  have hpatch := overwrite_append (c.code ++ [op]) post
    ((length_leBytes 4 0).trans (length_leBytes 4 t).symm)
  rw [List.length_append, List.length_singleton] at hpatch
  rw [patchJump, hsplit, codePc, hpatch, List.append_assoc c.code [op], List.singleton_append]

/-- A jump, the code behind it and the patch of the jump to a place already passed. -/
theorem jump_lays {op : Byte} {i : ℕ → Instr} {t : ℕ} (hop : IsJump op i)
    (hjump : emitJump os c op = .ok c₁) (h : Lays c₁ c₂ ds Q) (ht : t ≤ codePc c₂) :
    Lays c (patchJump c₂ (codePc c) t) ds fun τ ↦
      InstrAt τ.code (codePc c) (i t) (codePc c₁) ∧ Q τ := by
  obtain ⟨hext₁, hcode₁⟩ := emit_spec hjump
  obtain ⟨post, hpost⟩ := h.1.code
  have hcode₂ : c₂.code = c.code ++ (op :: leBytes 4 0) ++ post := by rw [← hpost, hcode₁]
  have hcode := patchJump_code (t := t) post hcode₂
  have hlen : (patchJump c₂ (codePc c) t).code.length = c₂.code.length := by
    rw [hcode, hcode₂]
    simp
  have hpc : codePc c₁ = codePc c + (encode (i t)).length := by
    rw [(hop t).1, codePc, hcode₁]
    simp [codePc]
  have hall := hext₁.trans h.1
  refine ⟨?_, fun τ hτ ↦ ?_⟩
  · constructor
    · rw [hcode, List.append_assoc]
      exact List.prefix_append _ _
    · exact hall.syms
    · exact hall.resolve
    · exact hall.distinct
    · exact hall.strings
    · exact hall.inFn
    · exact hall.lastExpr
    · intro hb
      have hb₂ := hall.bounded hb
      exact ⟨⟨hlen.trans_le hb₂.code, hb₂.syms, hb₂.strings⟩, hlen.trans_le hb₂.len_le, hb₂.cap_le⟩
  · have hsmall : Small c₂ :=
      ⟨hlen.symm.trans_le hτ.small.code, hτ.small.syms, hτ.small.strings⟩
    have hbytes := hτ.bytesAt post hcode
    rw [← (hop t).1] at hbytes
    have hfits : (i t).Fits := by
      refine (hop t).2 (lt_of_le_of_lt (ht.trans hsmall.code) ?_)
      decide
    refine ⟨⟨hbytes, hfits, hpc⟩, h.2 τ ⟨?_, hτ.syms, hτ.resolve, hτ.strings, hτ.inFn, hsmall⟩⟩
    -- behind the jump the patched code is the code before the patch
    intro k hlo hhi
    have hlo' : (c.code ++ (op :: leBytes 4 t)).length ≤ k := by
      rw [hcode₁] at hlo
      simpa using hlo
    have hlo₀ : (c.code ++ (op :: leBytes 4 0)).length ≤ k := by
      simpa using hlo'
    rw [hτ.code k (hext₁.code.length_le.trans hlo) (by rwa [hlen]), hcode, hcode₂,
      List.getElem?_append_right hlo', List.getElem?_append_right hlo₀]
    simp

/-- Patches of two jumps commute. -/
theorem patchJump_comm {at₁ at₂ t₁ t₂ : ℕ} (h₁₂ : at₁ + 5 ≤ at₂) (h₂ : at₂ + 5 ≤ codePc c) :
    patchJump (patchJump c at₁ t₁) at₂ t₂ = patchJump (patchJump c at₂ t₂) at₁ t₁ := by
  rw [codePc] at h₂
  have hcomm : overwrite (overwrite c.code (at₁ + 1) (leBytes 4 t₁)) (at₂ + 1) (leBytes 4 t₂) =
      overwrite (overwrite c.code (at₂ + 1) (leBytes 4 t₂)) (at₁ + 1) (leBytes 4 t₁) := by
    apply overwrite_comm
    · rw [length_leBytes]
      omega
    · rw [length_leBytes]
      omega
  simp only [patchJump, hcomm]

theorem emitJump_pc {op : Byte} (h : emitJump os c op = .ok c') : codePc c' = codePc c + 5 := by
  rw [codePc, (emit_spec h).2]
  simp [codePc]

/-- A jump back. -/
theorem emitJumpAt_lays {t : ℕ} (h : emitJumpAt os c opJmp t = .ok c') (ht : t ≤ codePc c) :
    Lays c c' [] fun τ ↦ InstrAt τ.code (codePc c) (.jmp t) (codePc c') := by
  obtain ⟨c₁, hjump, hret⟩ := exists_of_bind_eq_ok h
  have hpc := emitJump_pc hjump
  have hlays := jump_lays (t := t) isJump_jmp hjump (Lays.refl c₁) (by omega)
  obtain rfl := Except.ok.inj hret
  have hcode₁ := (emit_spec hjump).2
  have hlen : codePc (patchJump c₁ (codePc c) t) = codePc c₁ := by
    rw [codePc, patchJump_code [] (by rw [hcode₁, List.append_nil]), codePc, hcode₁]
    simp
  refine hlays.mono fun τ hτ ↦ ?_
  rw [hlen]
  exact hτ.1

end NoOsKernel.Noc
