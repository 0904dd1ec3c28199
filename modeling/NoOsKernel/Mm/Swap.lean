import NoOsKernel.Mm.Task

/-!
# Swap

`kernel/mm/swap.c`. The disk always answers: `ide_read_sectors` and `ide_write_sectors` return `0`,
so their error paths are not taken, and a slot is the page last written to it.
-/

set_option autoImplicit false
set_option relaxedAutoImplicit false

namespace NoOsKernel.Mm

open Lib

/-- `SWAP_MAX_PER_TASK`. -/
def swapMaxPerTask : ℕ := 128

/-- `slot_alloc`, `none` for `-1`. -/
def slotAlloc (s : Swap) : Option (ℕ × Swap) :=
  if s.active = false then none
  else (firstClear s.slots 0 s.pages).map fun i ↦ (i, { s with slots := bitSet s.slots i })

/-- `slot_free`. -/
def slotFree (s : Swap) (slot : ℕ) : Swap := { s with slots := bitClr s.slots slot }

/-- `ent_find`, as an index into the live entries. -/
def entFind (t : Task) (va : ℕ) : Option ℕ := t.swapMap.findIdx? fun e ↦ e.vkey == va / 2 ^ 12

/-- `swap_has`. -/
def swapHas (t : Task) (va : ℕ) : Bool := (entFind t va).isSome

/-- `swap_out`: `0`, or `-1` when it refuses. -/
def swapOut (k : Kernel) (i va : ℕ) : ℤ × Kernel :=
  let t := k.tasks i
  if k.swap.active = false ∨ t.user = false ∨ t.cr3 = 0 then (-1, k)
  else if swapHas t va then (-1, k)
  else if swapMaxPerTask ≤ t.swapMap.length then (-1, k)
  else
    let frame := vmmTranslate k.machine.mem t.cr3 va
    if frame = 0 then (-1, k)
    else
      match slotAlloc k.swap with
      | none => (-1, k)
      | some (slot, swap) =>
        let m := vmmUnmap k.machine t.cr3 va
        (0, { k with
          machine := { m with pmm := pmmFreeFrame m.pmm frame }
          swap := { swap with
            store := Function.update swap.store slot (k.machine.mem (frame / frameSize))
            swapsOut := swap.swapsOut + 1 }
          tasks := Function.update k.tasks i
            { t with swapMap := t.swapMap ++ [⟨va / 2 ^ 12, slot⟩] } })

/-- `swap_out` refuses: swap is off, the task has no user address space, the page is swapped out
already, the task's map is full, the walk finds no frame, or there is no slot. -/
def SwapRefused (k : Kernel) (i va : ℕ) : Prop :=
  (k.swap.active = false ∨ (k.tasks i).user = false ∨ (k.tasks i).cr3 = 0) ∨
    swapHas (k.tasks i) va = true ∨ swapMaxPerTask ≤ (k.tasks i).swapMap.length ∨
    vmmTranslate k.machine.mem (k.tasks i).cr3 va = 0 ∨
    firstClear k.swap.slots 0 k.swap.pages = none

instance (k : Kernel) (i va : ℕ) : Decidable (SwapRefused k i va) :=
  inferInstanceAs (Decidable (_ ∨ _))

theorem swapOut_of_refused {k : Kernel} {i va : ℕ} (h : SwapRefused k i va) :
    swapOut k i va = (-1, k) := by
  rw [SwapRefused] at h
  rw [swapOut]
  by_cases hoff : k.swap.active = false ∨ (k.tasks i).user = false ∨ (k.tasks i).cr3 = 0
  · exact if_pos hoff
  rw [if_neg hoff]
  by_cases hhas : swapHas (k.tasks i) va = true
  · exact if_pos hhas
  rw [if_neg hhas]
  by_cases hfull : swapMaxPerTask ≤ (k.tasks i).swapMap.length
  · exact if_pos hfull
  rw [if_neg hfull]
  by_cases hmapped : vmmTranslate k.machine.mem (k.tasks i).cr3 va = 0
  · exact if_pos hmapped
  have hslots : firstClear k.swap.slots 0 k.swap.pages = none := by tauto
  rw [if_neg hmapped, slotAlloc, hslots, Option.map_none, ite_self]

/-- A page that is not refused leaves the address space, and its frame goes back. -/
theorem swapOut_of_not_refused {k : Kernel} {i va : ℕ} (h : ¬ SwapRefused k i va) :
    ∃ slot, firstClear k.swap.slots 0 k.swap.pages = some slot ∧
      swapOut k i va = (0, { k with
        machine := { vmmUnmap k.machine (k.tasks i).cr3 va with
          pmm := pmmFreeFrame k.machine.pmm (vmmTranslate k.machine.mem (k.tasks i).cr3 va) }
        swap := { k.swap with
          slots := bitSet k.swap.slots slot
          store := Function.update k.swap.store slot
            (k.machine.mem (vmmTranslate k.machine.mem (k.tasks i).cr3 va / frameSize))
          swapsOut := k.swap.swapsOut + 1 }
        tasks := Function.update k.tasks i { k.tasks i with
          swapMap := (k.tasks i).swapMap ++ [⟨va / 2 ^ 12, slot⟩] } }) := by
  simp only [SwapRefused, not_or] at h
  obtain ⟨⟨hactive, huser, hcr3⟩, hhas, hfull, hmapped, hslots⟩ := h
  obtain ⟨slot, hslot⟩ := Option.ne_none_iff_exists'.mp hslots
  refine ⟨slot, hslot, ?_⟩
  rw [swapOut, if_neg (by simp only [not_or]; exact ⟨hactive, huser, hcr3⟩), if_neg hhas,
    if_neg hfull, if_neg hmapped, slotAlloc, if_neg hactive, hslot]
  simp only [Option.map_some, vmmUnmap_pmm]

/-- Remove a live entry: the last one takes its place. -/
def removeEnt (entries : List SwapEnt) (j : ℕ) : List SwapEnt :=
  match entries.getLast? with
  | none => entries
  | some last => (entries.set j last).dropLast

/-- `swap_in`: `0`, or `-1` when the page is not swapped out or there is no frame. -/
def swapIn (k : Kernel) (i va : ℕ) : ℤ × Kernel :=
  let t := k.tasks i
  if k.swap.active = false ∨ t.user = false ∨ t.cr3 = 0 then (-1, k)
  else
    match entFind t va with
    | none => (-1, k)
    | some j =>
      let slot := ((t.swapMap[j]?).map SwapEnt.slot).getD 0
      match mapFresh k.machine t.cr3 va (some (k.swap.store slot)) (vmmUser ||| vmmWrite) with
      | .error m => (-1, { k with machine := m })
      | .ok (_, m) =>
        (0, { k with
          machine := m
          swap := { slotFree k.swap slot with swapsIn := k.swap.swapsIn + 1 }
          tasks := Function.update k.tasks i { t with swapMap := removeEnt t.swapMap j } })

/-- `swap_exit_task`. -/
def swapExitTask (k : Kernel) (i : ℕ) : Kernel :=
  if k.swap.active = false then k
  else
    { k with
      swap := ((k.tasks i).swapMap.map SwapEnt.slot).foldl slotFree k.swap
      tasks := Function.update k.tasks i { k.tasks i with swapMap := [] } }

/-- `swap_prefetch`. -/
def swapPrefetch (k : Kernel) (i : ℕ) : Kernel :=
  let t := k.tasks i
  if k.swap.active = false ∨ t.user = false ∨ t.cr3 = 0 then k
  else
    let p := pgpredPredict k.pgpred
    if p = 0 then k
    else
      let va := p * 2 ^ 12 % 2 ^ 64
      if va < userImageBase ∨ userRegionEnd ≤ va then k
      else if swapHas t va = false then k
      else (swapIn k i va).2

/-- The loops of `reclaim_task`: pages are swapped out until more than `low` frames are free. -/
def reclaimPages (low i : ℕ) : Kernel → List ℕ → Kernel
  | k, [] => k
  | k, va :: rest =>
    let r := swapOut k i va
    if r.1 = 0 then
      let k' : Kernel := { r.2 with swap := { r.2.swap with reclaims := r.2.swap.reclaims + 1 } }
      if low < k'.machine.pmm.freeFrames then k' else reclaimPages low i k' rest
    else reclaimPages low i r.2 rest

/-- The pages of an area. -/
def pagesFrom (base count : ℕ) : List ℕ := (List.range count).map fun j ↦ base + j * 4096

/-- `reclaim_task`: script scratch, stack and heap. -/
def reclaimTask (k : Kernel) (i : ℕ) : Kernel :=
  let low := k.machine.pmm.totalFrames / 25
  let t := k.tasks i
  if low < k.machine.pmm.freeFrames then k
  else if t.user = false ∨ t.cr3 = 0 then k
  else
    reclaimPages low i k (pagesFrom userScriptBase 8 ++ pagesFrom userStackBase 16 ++
      pagesFrom userHeapBase t.heapPages)

/-- `swap_reclaim`. -/
def swapReclaim (k : Kernel) : Kernel :=
  if k.swap.active = false then k
  else if k.machine.pmm.totalFrames / 25 < k.machine.pmm.freeFrames then k
  else schedForeachUser reclaimTask k

/-! ### Addresses outside the user region -/

/-- The kernel half of an address space: entry `0` of the top table leads through the boot tables to
512 pages of 2 MiB, present, writable and huge. -/
structure IdentityMapped (mem : ℕ → Page) (cr3 : ℕ) : Prop where
  pml4 : present (word mem cr3 0) = true
  pdpt : present (word mem (pteAddr (word mem cr3 0)) 0) = true
  pd : ∀ j < 512, word mem (pteAddr (word mem (pteAddr (word mem cr3 0)) 0)) j =
    BitVec.ofNat 64 (j * 0x200000) ||| 0x83

/-- The walk takes a huge page for a page table: below 1 GiB it follows the word it finds in the
memory of the page. -/
theorem vmmTranslate_identityMapped {mem : ℕ → Page} {cr3 va : ℕ} (h : IdentityMapped mem cr3)
    (hva : va < 2 ^ 30) :
    vmmTranslate mem cr3 va =
      if present (word mem (pdi va * 0x200000) (pti va)) then
        pteAddr (word mem (pdi va * 0x200000) (pti va))
      else 0 := by
  have hpml4 : pml4i va = 0 := by
    rw [pml4i]
    omega
  have hpdpt : pdpti va = 0 := by
    rw [pdpti]
    omega
  have hpd : pdi va < 512 := Nat.mod_lt _ (by decide)
  have hentry : ∀ j < 512,
      (BitVec.ofNat 64 (j * 0x200000) ||| 0x83).toNat = j * 0x200000 + 0x83 := by
    intro j hj
    rw [BitVec.toNat_or, BitVec.toNat_ofNat, Nat.mod_eq_of_lt (by omega),
      show j * 0x200000 = j <<< 21 by rw [Nat.shiftLeft_eq],
      show (0x83 : BitVec 64).toNat = 0x83 from rfl, Nat.shiftLeft_add_eq_or_of_lt (by decide)]
  have hhuge : present (BitVec.ofNat 64 (pdi va * 0x200000) ||| 0x83) = true := by
    rw [present, getLsbD_eq_testBit, hentry _ hpd, Nat.testBit_zero, decide_eq_true_eq]
    omega
  have haddr : pteAddr (BitVec.ofNat 64 (pdi va * 0x200000) ||| 0x83) = pdi va * 0x200000 := by
    rw [pteAddr_eq, hentry _ hpd]
    omega
  have hwalk : walkPt mem cr3 va = some (pdi va * 0x200000) := by
    simp only [walkPt, descend, hpml4, hpdpt, h.pml4, h.pdpt, h.pd _ hpd, hhuge, haddr, if_true,
      Option.bind_some]
  rw [vmmTranslate, hwalk]

/-- `swap_out` refuses an address outside the user region, and changes nothing, exactly when one of
its own guards refuses it: it does not look at the region. -/
theorem swapOut_confined_iff (k : Kernel) (i va : ℕ) :
    (¬ InUserRegion va → swapOut k i va = (-1, k)) ↔ InUserRegion va ∨ SwapRefused k i va := by
  constructor
  · intro h
    by_cases hregion : InUserRegion va
    · exact Or.inl hregion
    · by_contra hnot
      obtain ⟨slot, -, heq⟩ := swapOut_of_not_refused fun hrefused ↦ hnot (Or.inr hrefused)
      have hcode : (-1 : ℤ) = 0 := congrArg Prod.fst ((h hregion).symm.trans heq)
      exact absurd hcode (by decide)
  · rintro (hregion | hrefused) hout
    · exact absurd hregion hout
    · exact swapOut_of_refused hrefused

/-- A task whose address space has the boot identity map, with a word at physical address
`0x200000` that reads as a present entry. -/
def identityKernel : Kernel where
  machine :=
    { mem := fun f i ↦
        if f = 0x101 ∧ i = 0 then 0x102003
        else if f = 0x102 ∧ i = 0 then 0x103003
        else if f = 0x103 then BitVec.ofNat 64 (i * 0x200000) ||| 0x83
        else if f = 0x200 ∧ i = 0 then 0x300001
        else 0
      pmm :=
        { bitmap := List.replicate 128 0xFF
          totalFrames := 1024
          freeFrames := 0 } }
  tasks := Function.update (fun _ ↦ Task.fresh) 1
    { Task.fresh with pid := 1, hasKstack := true, cr3 := 0x101000, user := true }
  nextPid := 2
  winPages := 16
  weights := fun _ _ ↦ 0
  swap :=
    { active := true
      slots := [0]
      pages := 8
      store := fun _ _ ↦ 0
      swapsOut := 0
      swapsIn := 0
      reclaims := 0 }
  pgpred := PgHist.empty
  bootPml4 := 0x100000
  blob := []
  blob_fits := nil_blob_fits

/-- Swapping the kernel address `0x200000` out succeeds, clears the word there, and frees the frame
the word names. -/
theorem swapOut_not_confined :
    IdentityMapped identityKernel.machine.mem (identityKernel.tasks 1).cr3 ∧
    ¬ InUserRegion 0x200000 ∧ (swapOut identityKernel 1 0x200000).1 = 0 ∧
    (swapOut identityKernel 1 0x200000).2.machine.mem 0x200 0 ≠
      identityKernel.machine.mem 0x200 0 ∧
    bitGet identityKernel.machine.pmm.bitmap 0x300 = true ∧
    bitGet (swapOut identityKernel 1 0x200000).2.machine.pmm.bitmap 0x300 = false := by
  refine ⟨⟨by decide, by decide, fun j _ ↦ ?_⟩, by decide, by decide +kernel, by decide +kernel,
    by decide +kernel, by decide +kernel⟩
  rw [show pteAddr (word identityKernel.machine.mem (pteAddr (word identityKernel.machine.mem
    (identityKernel.tasks 1).cr3 0)) 0) = 0x103000 by decide]
  rfl

end NoOsKernel.Mm
