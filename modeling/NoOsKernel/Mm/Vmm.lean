import NoOsKernel.Lib.Radix
import NoOsKernel.Mm.Pmm

/-!
# Page tables

`kernel/mm/vmm.c`. Physical memory is a function from frames to pages of words, reached through the
identity map, so that a pointer to a table is the address of its frame. The walks do what the source
does: they test the present bit and follow the address bits, and know nothing of huge pages.

An address space is a radix tree (`Lib.Radix`) below its top-level table: an entry points to a frame
when it is present (`pteFrame`), and a virtual address is a path, the page-table index first
(`pathOf`).
-/

set_option autoImplicit false
set_option relaxedAutoImplicit false

namespace NoOsKernel.Mm

open Lib Lib.Radix

/-- A machine word. -/
abbrev Word := BitVec 64

/-- The words of a frame. -/
abbrev Page := ℕ → Word

/-- Physical memory and the allocator of its frames. -/
structure Machine where
  mem : ℕ → Page
  pmm : Pmm

/-- The word at an index of the table at an address. -/
def word (mem : ℕ → Page) (table i : ℕ) : Word := mem (table / frameSize) i

namespace Machine

/-- Store one word of the table at an address. -/
def setWord (m : Machine) (table i : ℕ) (w : Word) : Machine :=
  { m with mem := fun g j ↦ if g = table / frameSize ∧ j = i then w else m.mem g j }

/-- Fill the frame at an address. -/
def setPage (m : Machine) (frame : ℕ) (page : Page) : Machine :=
  { m with mem := fun g ↦ if g = frame / frameSize then page else m.mem g }

/-- Fill the frame at an address, when there is something to fill it with. -/
def fill (m : Machine) (frame : ℕ) : Option Page → Machine
  | none => m
  | some page => m.setPage frame page

@[simp] theorem setWord_pmm (m : Machine) (table i : ℕ) (w : Word) :
    (m.setWord table i w).pmm = m.pmm := rfl

end Machine

/-- `USER_IMAGE_BASE`. -/
def userImageBase : ℕ := 0x10000000000

/-- `USER_SCRIPT_BASE`. -/
def userScriptBase : ℕ := 0x100C0000000

/-- `USER_HEAP_BASE`. -/
def userHeapBase : ℕ := 0x100D0000000

/-- `USER_STACK_BASE`. -/
def userStackBase : ℕ := 0x100F0000000

/-- `USER_MODEL_BASE`. -/
def userModelBase : ℕ := 0x100F1000000

/-- `USER_MODEL_MAX`. -/
def userModelMax : ℕ := 2 ^ 30

/-- `USER_REGION_END`. -/
def userRegionEnd : ℕ := 0x10100000000

/-- The user region. -/
def InUserRegion (va : ℕ) : Prop := userImageBase ≤ va ∧ va < userRegionEnd

instance (va : ℕ) : Decidable (InUserRegion va) := inferInstanceAs (Decidable (_ ∧ _))

/-! ### Entries -/

/-- `VMM_WRITE`. -/
def vmmWrite : BitVec 8 := 2

/-- `VMM_USER`. -/
def vmmUser : BitVec 8 := 4

/-- The present bit, `e & 1`. -/
def present (e : Word) : Bool := e.getLsbD 0

/-- The writable bit. -/
def writable (e : Word) : Bool := e.getLsbD 1

/-- The address an entry points to, `e & ~0xFFF`. -/
def pteAddr (e : Word) : ℕ := (e &&& ~~~0xFFF#64).toNat

/-- An entry for a frame, `frame | flags`. -/
def tableEntry (frame : ℕ) (flags : BitVec 8) : Word := BitVec.ofNat 64 frame ||| flags.setWidth 64

/-- The leaf entry `vmm_map` writes: the frame, the present bit, and the write and user bits of the
flags. -/
def leafEntry (paddr : ℕ) (flags : BitVec 8) : Word :=
  (BitVec.ofNat 64 paddr &&& ~~~0xFFF#64) ||| (0x1#8 ||| (flags &&& 0x6#8)).setWidth 64

/-- The flags `vmm_map` gives a table it creates. -/
def tableFlags (flags : BitVec 8) : BitVec 8 :=
  0x3#8 ||| (if flags &&& vmmUser ≠ 0 then vmmUser else 0)

/-! ### Indices -/

/-- `(vaddr >> 39) & 0x1FF`. -/
def pml4i (va : ℕ) : ℕ := va / 2 ^ 39 % 512

/-- `(vaddr >> 30) & 0x1FF`. -/
def pdpti (va : ℕ) : ℕ := va / 2 ^ 30 % 512

/-- `(vaddr >> 21) & 0x1FF`. -/
def pdi (va : ℕ) : ℕ := va / 2 ^ 21 % 512

/-- `(vaddr >> 12) & 0x1FF`. -/
def pti (va : ℕ) : ℕ := va / 2 ^ 12 % 512

/-! ### The functions of `vmm.c` -/

/-- `pt_new`. -/
def ptNew (m : Machine) (table idx : ℕ) (flags : BitVec 8) : ℕ × Machine :=
  let r := pmmAllocFrame m.pmm
  if r.1 = 0 then (0, { m with pmm := r.2 })
  else
    (r.1, (Machine.setPage { m with pmm := r.2 } r.1 fun _ ↦ 0).setWord table idx
      (tableEntry r.1 flags))

/-- One level of the walk of `vmm_map`: the table an entry points to, created when there is none. -/
def nextTable (m : Machine) (table idx : ℕ) (flags : BitVec 8) : Option ℕ × Machine :=
  if present (word m.mem table idx) then (some (pteAddr (word m.mem table idx)), m)
  else
    let r := ptNew m table idx flags
    if r.1 = 0 then (none, r.2) else (some (pteAddr (word r.2.mem table idx)), r.2)

/-- `vmm_map`. A walk that runs out of frames returns without mapping the page. -/
def vmmMap (m : Machine) (cr3 va paddr : ℕ) (flags : BitVec 8) : Machine :=
  match nextTable m cr3 (pml4i va) (tableFlags flags) with
  | (none, m) => m
  | (some pdpt, m) =>
    match nextTable m pdpt (pdpti va) (tableFlags flags) with
    | (none, m) => m
    | (some pd, m) =>
      match nextTable m pd (pdi va) (tableFlags flags) with
      | (none, m) => m
      | (some pt, m) => m.setWord pt (pti va) (leafEntry paddr flags)

/-- One level of the walks that create nothing. -/
def descend (mem : ℕ → Page) (table idx : ℕ) : Option ℕ :=
  if present (word mem table idx) then some (pteAddr (word mem table idx)) else none

/-- The walk to the page table of an address. -/
def walkPt (mem : ℕ → Page) (cr3 va : ℕ) : Option ℕ :=
  (descend mem cr3 (pml4i va)).bind fun pdpt ↦
    (descend mem pdpt (pdpti va)).bind fun pd ↦ descend mem pd (pdi va)

/-- `vmm_unmap`. -/
def vmmUnmap (m : Machine) (cr3 va : ℕ) : Machine :=
  match walkPt m.mem cr3 va with
  | none => m
  | some pt => m.setWord pt (pti va) 0

@[simp] theorem vmmUnmap_pmm (m : Machine) (cr3 va : ℕ) : (vmmUnmap m cr3 va).pmm = m.pmm := by
  rw [vmmUnmap]
  split <;> rfl

/-- `vmm_translate`, `0` when the address is not mapped. -/
def vmmTranslate (mem : ℕ → Page) (cr3 va : ℕ) : ℕ :=
  match walkPt mem cr3 va with
  | none => 0
  | some pt => if present (word mem pt (pti va)) then pteAddr (word mem pt (pti va)) else 0

/-- `vmm_new_address_space`; `bootPml4` is the address of the boot table. -/
def vmmNewAddressSpace (m : Machine) (bootPml4 : ℕ) : ℕ × Machine :=
  let r := pmmAllocFrame m.pmm
  if r.1 = 0 then (0, { m with pmm := r.2 })
  else
    let m' := Machine.setPage { m with pmm := r.2 } r.1 fun _ ↦ 0
    (r.1, m'.setWord r.1 0 (word m'.mem bootPml4 0))

/-- The frames the entries of a table point to. -/
def tableFrames (mem : ℕ → Page) (table : ℕ) : List ℕ :=
  (List.range 512).filterMap fun i ↦ descend mem table i

/-- The frames `vmm_free_address_space` frees, in its order. -/
def spaceFrames (mem : ℕ → Page) (cr3 : ℕ) : List ℕ :=
  match descend mem cr3 2 with
  | none => []
  | some pdpt =>
    ((tableFrames mem pdpt).flatMap fun pd ↦
      ((tableFrames mem pd).flatMap fun pt ↦ tableFrames mem pt ++ [pt]) ++ [pd]) ++ [pdpt, cr3]

/-- `vmm_free_address_space`. -/
def vmmFreeAddressSpace (m : Machine) (cr3 : ℕ) : Machine :=
  { m with pmm := (spaceFrames m.mem cr3).foldl pmmFreeFrame m.pmm }

/-- The sequence every caller of `vmm_map` makes: take a frame, give it its contents, if it gets any,
and map it. Without a free frame the caller is left with the machine as it is. -/
def mapFresh (m : Machine) (cr3 va : ℕ) (fill : Option Page) (flags : BitVec 8) :
    Except Machine (ℕ × Machine) :=
  let r := pmmAllocFrame m.pmm
  if r.1 = 0 then .error { m with pmm := r.2 }
  else .ok (r.1, vmmMap (Machine.fill { m with pmm := r.2 } r.1 fill) cr3 va r.1 flags)

/-- A page to be mapped: where, with what contents, if it gets any, and with which flags. -/
structure Mapping where
  va : ℕ
  fill : Option Page
  flags : BitVec 8

/-- Fresh pages are mapped one after the other, until there is no frame for one. -/
def mapAll (m : Machine) (cr3 : ℕ) : List Mapping → Except Machine Machine
  | [] => .ok m
  | x :: rest =>
    match mapFresh m cr3 x.va x.fill x.flags with
    | .error m => .error m
    | .ok (_, m) => mapAll m cr3 rest

/-- The pages `vmm_alloc_user_pages` maps. -/
def userPages (pages vaddr : ℕ) : List Mapping :=
  (List.range pages).map fun i ↦ ⟨(vaddr + i * 4096) % 2 ^ 64, none, vmmUser ||| vmmWrite⟩

/-- `vmm_alloc_user_pages`. -/
def vmmAllocUserPages (m : Machine) (cr3 pages vaddr : ℕ) : ℕ × Machine :=
  match mapAll m cr3 (userPages pages vaddr) with
  | .error m => (0, m)
  | .ok m => (vaddr, m)

/-! ### What entries say -/

/-- The frame an entry points to, when it is present. -/
def pteFrame (e : Word) : Option ℕ := if present e then some (pteAddr e / frameSize) else none

theorem pteAddr_eq (e : Word) : pteAddr e = e.toNat / 4096 * 4096 := by
  have hmask : e &&& ~~~0xFFF#64 = e >>> 12 <<< 12 := and_not_low e 12
  have hlt := e.isLt
  rw [pteAddr, hmask, BitVec.toNat_shiftLeft, BitVec.toNat_ushiftRight, Nat.shiftLeft_eq,
    Nat.shiftRight_eq_div_pow]
  omega

/-- The address of an entry is that of a frame. -/
theorem pteAddr_div_mul (e : Word) : pteAddr e / frameSize * frameSize = pteAddr e := by
  rw [pteAddr_eq, frameSize]
  omega

/-- The number an entry is: the address of its frame with the flags in the low bits. -/
theorem toNat_tableEntry {f : ℕ} (hf : f < 2 ^ 18) (flags : BitVec 8) :
    (tableEntry (f * frameSize) flags).toNat = f * 4096 + flags.toNat := by
  have hflags := flags.isLt
  rw [tableEntry, frameSize, BitVec.toNat_or, BitVec.toNat_ofNat, BitVec.toNat_setWidth,
    Nat.mod_eq_of_lt (by omega), Nat.mod_eq_of_lt (by omega),
    show f * 4096 = f <<< 12 by rw [Nat.shiftLeft_eq], Nat.shiftLeft_add_eq_or_of_lt (by omega)]

theorem getLsbD_eq_testBit (e : Word) (i : ℕ) : e.getLsbD i = e.toNat.testBit i := rfl

theorem present_tableEntry {f : ℕ} (hf : f < 2 ^ 18) {flags : BitVec 8}
    (hflags : flags.toNat % 2 = 1) : present (tableEntry (f * frameSize) flags) = true := by
  rw [present, getLsbD_eq_testBit, toNat_tableEntry hf, Nat.testBit_zero, decide_eq_true_eq]
  omega

/-- An entry for a frame points to it. -/
theorem pteFrame_tableEntry {f : ℕ} (hf : f < 2 ^ 18) {flags : BitVec 8}
    (hflags : flags.toNat % 2 = 1) : pteFrame (tableEntry (f * frameSize) flags) = some f := by
  have hlt := flags.isLt
  rw [pteFrame, if_pos (present_tableEntry hf hflags), pteAddr_eq, toNat_tableEntry hf, frameSize,
    Option.some.injEq]
  omega

/-- The low bits of a frame's address are clear, so a leaf entry is a table entry. -/
theorem leafEntry_eq {f : ℕ} (hf : f < 2 ^ 18) (flags : BitVec 8) :
    leafEntry (f * frameSize) flags = tableEntry (f * frameSize) (0x1#8 ||| (flags &&& 0x6#8)) := by
  rw [leafEntry, tableEntry]
  congr 1
  apply BitVec.eq_of_toNat_eq
  have haddr := pteAddr_eq (BitVec.ofNat 64 (f * frameSize))
  rw [pteAddr] at haddr
  rw [haddr, BitVec.toNat_ofNat, frameSize, Nat.mod_eq_of_lt (by omega)]
  omega

theorem tableFlags_odd (flags : BitVec 8) : (tableFlags flags).toNat % 2 = 1 := by
  rw [tableFlags]
  split_ifs <;> rfl

theorem leafFlags_odd (flags : BitVec 8) : (0x1#8 ||| (flags &&& 0x6#8)).toNat % 2 = 1 := by
  rw [BitVec.toNat_or, Nat.or_mod_two_eq_one]
  exact Or.inl rfl

theorem pteFrame_leafEntry {f : ℕ} (hf : f < 2 ^ 18) (flags : BitVec 8) :
    pteFrame (leafEntry (f * frameSize) flags) = some f := by
  rw [leafEntry_eq hf, pteFrame_tableEntry hf (leafFlags_odd flags)]

/-- The number a leaf entry is, for any address. -/
theorem toNat_leafEntry {paddr : ℕ} (h : paddr < 2 ^ 64) (flags : BitVec 8) :
    (leafEntry paddr flags).toNat =
      paddr / 4096 * 4096 + (0x1#8 ||| (flags &&& 0x6#8)).toNat := by
  have hflags := (0x1#8 ||| (flags &&& 0x6#8)).isLt
  have haddr := pteAddr_eq (BitVec.ofNat 64 paddr)
  rw [pteAddr, BitVec.toNat_ofNat, Nat.mod_eq_of_lt h] at haddr
  rw [leafEntry, BitVec.toNat_or, haddr, BitVec.toNat_setWidth, Nat.mod_eq_of_lt (by omega),
    show paddr / 4096 * 4096 = (paddr / 4096) <<< 12 by rw [Nat.shiftLeft_eq],
    Nat.shiftLeft_add_eq_or_of_lt (by omega)]

theorem present_leafEntry {paddr : ℕ} (h : paddr < 2 ^ 64) (flags : BitVec 8) :
    present (leafEntry paddr flags) = true := by
  have hodd := leafFlags_odd flags
  rw [present, getLsbD_eq_testBit, toNat_leafEntry h, Nat.testBit_zero, decide_eq_true_eq]
  omega

/-- A leaf entry points to the page base of its address. -/
theorem pteAddr_leafEntry {paddr : ℕ} (h : paddr < 2 ^ 64) (flags : BitVec 8) :
    pteAddr (leafEntry paddr flags) = paddr / 4096 * 4096 := by
  have hflags := (0x1#8 ||| (flags &&& 0x6#8)).isLt
  rw [pteAddr_eq, toNat_leafEntry h]
  omega

/-- Without `VMM_WRITE` a leaf is read-only. -/
theorem writable_leafEntry_user {f : ℕ} (hf : f < 2 ^ 18) :
    writable (leafEntry (f * frameSize) vmmUser) = false := by
  rw [leafEntry_eq hf, writable, getLsbD_eq_testBit, toNat_tableEntry hf, Nat.testBit,
    Nat.shiftRight_eq_div_pow, show (0x1#8 ||| (vmmUser &&& 0x6#8)).toNat = 5 from rfl]
  simp only [Nat.pow_one, Nat.one_and_eq_mod_two]
  rw [bne_eq_false_iff_eq]
  omega

@[simp] theorem pteFrame_zero : pteFrame 0 = none := rfl

theorem pteFrame_of_present {e : Word} (h : present e = true) :
    pteFrame e = some (pteAddr e / frameSize) := if_pos h

/-! ### Walks are paths -/

/-- The path of an address, the page-table index first. -/
def pathOf (va : ℕ) : List ℕ := [pti va, pdi va, pdpti va, pml4i va]

/-- Addresses of the user half of an address space: those below entry `2` of the top table. -/
def IsUserVa (va : ℕ) : Prop := va / 2 ^ 39 = 2

instance (va : ℕ) : Decidable (IsUserVa va) := inferInstanceAs (Decidable (_ = _))

theorem IsUserVa.of_region {va : ℕ} (h : userImageBase ≤ va) (h' : va < 0x18000000000) :
    IsUserVa va := by
  rw [IsUserVa]
  rw [userImageBase] at h
  omega

theorem IsUserVa.pml4i_eq {va : ℕ} (h : IsUserVa va) : pml4i va = 2 := by
  rw [pml4i, h]

theorem treePath_of_pml4i {va : ℕ} (h : pml4i va = 2) : TreePath 4 2 (pathOf va) :=
  ⟨le_refl 4, Or.inr (by rw [pathOf, h]; rfl)⟩

theorem treePath_pathOf {va : ℕ} (h : IsUserVa va) : TreePath 4 2 (pathOf va) :=
  treePath_of_pml4i h.pml4i_eq

/-- The walk looks at bits `12` to `47` of an address. -/
theorem pathOf_eq_iff (va va' : ℕ) :
    pathOf va = pathOf va' ↔ va / 2 ^ 12 % 2 ^ 36 = va' / 2 ^ 12 % 2 ^ 36 := by
  simp only [pathOf, List.cons.injEq, pti, pdi, pdpti, pml4i, and_true]
  omega

theorem pathOf_congr {va va' : ℕ} (hpage : va / 4096 = va' / 4096) : pathOf va = pathOf va' := by
  rw [pathOf_eq_iff]
  omega

/-- Addresses with one path are addresses of one page. -/
theorem pathOf_inj {va va' : ℕ} (h : IsUserVa va) (h' : IsUserVa va')
    (hpath : pathOf va = pathOf va') : va / 4096 = va' / 4096 := by
  simp only [pathOf, List.cons.injEq, pti, pdi, pdpti, and_true] at hpath
  rw [IsUserVa] at h h'
  omega

theorem descend_eq (mem : ℕ → Page) (table idx : ℕ) :
    descend mem table idx = (pteFrame (mem (table / frameSize) idx)).map (· * frameSize) := by
  rw [descend, pteFrame, word]
  split_ifs
  · rw [Option.map_some, pteAddr_div_mul]
  · rfl

/-- Descending from the frame at the end of a path. -/
theorem descend_node {mem : ℕ → Page} {root : Option ℕ} {p : List ℕ} {f : ℕ}
    (h : node pteFrame mem root p = some f) (i : ℕ) :
    descend mem (f * frameSize) i = (node pteFrame mem root (i :: p)).map (· * frameSize) := by
  rw [descend_eq, node, h, Option.bind_some, Nat.mul_div_cancel _ (by decide : 0 < frameSize)]

/-- The walk to the page table is the path above the leaf. -/
theorem walkPt_eq (mem : ℕ → Page) {f : ℕ} (va : ℕ) :
    walkPt mem (f * frameSize) va =
      (node pteFrame mem (some f) [pdi va, pdpti va, pml4i va]).map (· * frameSize) := by
  rw [walkPt, descend_node (show node pteFrame mem (some f) [] = some f from rfl)]
  rcases hpdpt : node pteFrame mem (some f) [pml4i va] with - | g
  · rw [node, node, hpdpt]
    rfl
  · rw [Option.map_some, Option.bind_some, descend_node hpdpt]
    rcases hpd : node pteFrame mem (some f) [pdpti va, pml4i va] with - | g'
    · rw [node, hpd]
      rfl
    · rw [Option.map_some, Option.bind_some, descend_node hpd]

/-- The leaf entry of an address, when it is present. -/
def leafOf (mem : ℕ → Page) (cr3 va : ℕ) : Option Word :=
  (walkPt mem cr3 va).bind fun pt ↦
    if present (word mem pt (pti va)) then some (word mem pt (pti va)) else none

theorem leafOf_eq (mem : ℕ → Page) (f va : ℕ) :
    leafOf mem (f * frameSize) va = link pteFrame mem (some f) (pathOf va) := by
  rw [leafOf, walkPt_eq, pathOf, link, entry]
  rcases node pteFrame mem (some f) [pdi va, pdpti va, pml4i va] with - | g
  · rfl
  · rw [Option.map_some, Option.map_some, Option.bind_some, Option.filter_some, word,
      Nat.mul_div_cancel _ (by decide : 0 < frameSize), pteFrame]
    split_ifs with hpresent <;> simp_all

/-- `vmm_translate` gives the address of the leaf entry. -/
theorem vmmTranslate_eq (mem : ℕ → Page) (cr3 va : ℕ) :
    vmmTranslate mem cr3 va = ((leafOf mem cr3 va).map pteAddr).getD 0 := by
  rw [vmmTranslate, leafOf]
  rcases walkPt mem cr3 va with - | pt
  · rfl
  · simp only [Option.bind_some]
    split_ifs <;> rfl

end NoOsKernel.Mm
