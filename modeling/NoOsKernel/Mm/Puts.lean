import NoOsKernel.Mm.Ownership

/-!
# Reading user strings

`sys_puts` of `kernel/arch/x86_64/syscall.c` reads a string of the calling task through the address
space that is loaded, so a read is a walk of the processor, which knows 1 GiB and 2 MiB pages. The
gate of `int 0x80` keeps interrupts off, so the page tables do not change during the call. A read of
an address that is not mapped is a page fault in supervisor mode: `isr_panic` halts the machine.

Only the start of the string is checked. The reads are safe exactly when the string does not leave
its first page, or the page after it is there too.
-/

set_option autoImplicit false
set_option relaxedAutoImplicit false

namespace NoOsKernel.Mm

open Lib

/-! ### The walk of the processor -/

/-- The frame in bits 12 to 51 of an entry. -/
def hwFrameOf (e : Word) : ℕ := e.toNat / 2 ^ 12 % 2 ^ 40

/-- The page-size bit. -/
def hugeBit (e : Word) : Bool := e.getLsbD 7

/-- The frame behind a page, as the processor finds it. -/
def hwFrame (mem : ℕ → Page) (cr3 page : ℕ) : Option ℕ :=
  let e₄ := mem (cr3 / frameSize) (page / 2 ^ 27 % 512)
  if present e₄ = false then none
  else
    let e₃ := mem (hwFrameOf e₄) (page / 2 ^ 18 % 512)
    if present e₃ = false then none
    else if hugeBit e₃ then some (hwFrameOf e₃ / 2 ^ 18 * 2 ^ 18 + page % 2 ^ 18)
    else
      let e₂ := mem (hwFrameOf e₃) (page / 2 ^ 9 % 512)
      if present e₂ = false then none
      else if hugeBit e₂ then some (hwFrameOf e₂ / 2 ^ 9 * 2 ^ 9 + page % 2 ^ 9)
      else
        let e₁ := mem (hwFrameOf e₂) (page % 512)
        if present e₁ = false then none else some (hwFrameOf e₁)

/-- An address is mapped. -/
def HwMapped (mem : ℕ → Page) (cr3 va : ℕ) : Prop := (hwFrame mem cr3 (va / 4096)).isSome = true

instance (mem : ℕ → Page) (cr3 va : ℕ) : Decidable (HwMapped mem cr3 va) :=
  inferInstanceAs (Decidable (_ = _))

/-- A byte of a word. -/
def byteOf (w : Word) (j : ℕ) : Byte := (w >>> (8 * j)).setWidth 8

/-- The byte at an address, `none` for a page fault. -/
def readByte (mem : ℕ → Page) (cr3 va : ℕ) : Option Byte :=
  (hwFrame mem cr3 (va / 4096)).map fun f ↦ byteOf (mem f (va % 4096 / 8)) (va % 8)

/-! ### `sys_puts` -/

/-- What a call does: the addresses it reads, in order, and the characters it prints. -/
structure PutsTrace where
  reads : List ℕ
  out : List Byte

/-- The loop of `sys_puts`, with `n` iterations left. After a fault there is no next iteration. -/
def putsLoop (mem : ℕ → Page) (cr3 : ℕ) : ℕ → ℕ → PutsTrace
  | 0, _ => ⟨[], []⟩
  | n + 1, va =>
    match readByte mem cr3 va with
    | none => ⟨[va], []⟩
    | some c =>
      if c = 0 then ⟨[va], []⟩
      else
        let rest := putsLoop mem cr3 n (va + 1)
        ⟨va :: rest.reads, c :: rest.out⟩

/-- `sys_puts` for the task `i`. -/
def sysPuts (k : Kernel) (i a : ℕ) : PutsTrace :=
  if a < userImageBase ∨ userRegionEnd ≤ a then ⟨[], []⟩
  else putsLoop k.machine.mem (k.tasks i).cr3 4096 a

/-- The addresses read: those up to the first that is not mapped or holds a NUL. -/
theorem mem_reads_putsLoop {mem : ℕ → Page} {cr3 n va x : ℕ} :
    x ∈ (putsLoop mem cr3 n va).reads ↔ va ≤ x ∧ x < va + n ∧
      ∀ y, va ≤ y → y < x → ∃ c, readByte mem cr3 y = some c ∧ c ≠ 0 := by
  induction n generalizing va with
  | zero =>
    refine iff_of_false List.not_mem_nil ?_
    rintro ⟨hlo, hhi, -⟩
    omega
  | succ n ih =>
    rw [putsLoop]
    have hfirst : x = va → va ≤ x ∧ x < va + (n + 1) ∧
        ∀ y, va ≤ y → y < x → ∃ c, readByte mem cr3 y = some c ∧ c ≠ 0 := by
      rintro rfl
      exact ⟨le_refl x, by omega, fun y hlo hhi ↦ by omega⟩
    -- when the loop stops at `va`, no later address can be read
    have hstop : (∀ c, readByte mem cr3 va = some c → c = 0) → (x ∈ [va] ↔ va ≤ x ∧
        x < va + (n + 1) ∧ ∀ y, va ≤ y → y < x → ∃ c, readByte mem cr3 y = some c ∧ c ≠ 0) := by
      intro hnul
      rw [List.mem_singleton]
      refine ⟨hfirst, ?_⟩
      rintro ⟨hlo, -, hread⟩
      by_contra hne
      obtain ⟨c, hc, hc0⟩ := hread va (le_refl va) (by omega)
      exact hc0 (hnul c hc)
    rcases hread : readByte mem cr3 va with - | c
    · exact hstop fun c hc ↦ by rw [hread] at hc; exact absurd hc nofun
    simp only
    split_ifs with hc
    · exact hstop fun c' hc' ↦ by
        rw [hread, Option.some.injEq] at hc'
        rw [← hc', hc]
    · rw [List.mem_cons, ih]
      constructor
      · rintro (rfl | ⟨hlo, hhi, hbytes⟩)
        · exact hfirst rfl
        · refine ⟨by omega, by omega, fun y hylo hyhi ↦ ?_⟩
          by_cases hy : y = va
          · rw [hy]
            exact ⟨c, hread, hc⟩
          · exact hbytes y (by omega) hyhi
      · rintro ⟨hlo, hhi, hbytes⟩
        by_cases hx : x = va
        · exact Or.inl hx
        · exact Or.inr ⟨by omega, by omega, fun y hylo hyhi ↦ hbytes y (by omega) hyhi⟩

/-! ### When the reads are safe -/

/-- Every address read is mapped and lies in the user region. -/
def PutsSafe (k : Kernel) (i a : ℕ) : Prop :=
  ∀ x ∈ (sysPuts k i a).reads, HwMapped k.machine.mem (k.tasks i).cr3 x ∧ InUserRegion x

/-- The start of the page after that of an address. -/
def nextPage (a : ℕ) : ℕ := (a / 4096 + 1) * 4096

/-- The string starts outside the region; or its page is mapped and it starts the page, ends in it,
or is followed by a mapped page of the region. -/
def PutsCovered (k : Kernel) (i a : ℕ) : Prop :=
  ¬ InUserRegion a ∨ (HwMapped k.machine.mem (k.tasks i).cr3 a ∧ (a % 4096 = 0 ∨
    (∃ x, a ≤ x ∧ x < nextPage a ∧ readByte k.machine.mem (k.tasks i).cr3 x = some 0) ∨
    (nextPage a < userRegionEnd ∧ HwMapped k.machine.mem (k.tasks i).cr3 (nextPage a))))

theorem isSome_readByte {mem : ℕ → Page} {cr3 va : ℕ} :
    (readByte mem cr3 va).isSome = true ↔ HwMapped mem cr3 va := by
  rw [readByte, Option.isSome_map, HwMapped]

theorem reads_of_region {k : Kernel} {i a : ℕ} (h : InUserRegion a) :
    (sysPuts k i a).reads = (putsLoop k.machine.mem (k.tasks i).cr3 4096 a).reads := by
  rw [sysPuts, if_neg fun hout ↦ hout.elim (not_lt.mpr h.1) (not_le.mpr h.2)]

theorem covered_of_safe {k : Kernel} {i a : ℕ} (h : PutsSafe k i a) : PutsCovered k i a := by
  by_cases hregion : InUserRegion a
  · rw [PutsSafe, reads_of_region hregion] at h
    have hstart : a ∈ (putsLoop k.machine.mem (k.tasks i).cr3 4096 a).reads :=
      mem_reads_putsLoop.mpr ⟨le_refl a, by omega, fun y hlo hhi ↦ by omega⟩
    have hmapped := (h a hstart).1
    refine Or.inr ⟨hmapped, ?_⟩
    by_cases haligned : a % 4096 = 0
    · exact Or.inl haligned
    by_cases hnul : ∃ x, a ≤ x ∧ x < nextPage a ∧
        readByte k.machine.mem (k.tasks i).cr3 x = some 0
    · exact Or.inr (Or.inl hnul)
    · -- the loop runs into the next page
      have hnext : nextPage a ∈ (putsLoop k.machine.mem (k.tasks i).cr3 4096 a).reads := by
        refine mem_reads_putsLoop.mpr ⟨by rw [nextPage]; omega, by rw [nextPage]; omega,
          fun y hlo hhi ↦ ?_⟩
        have hsame : y / 4096 = a / 4096 := by
          rw [nextPage] at hhi
          omega
        have hy : HwMapped k.machine.mem (k.tasks i).cr3 y := by
          rw [HwMapped, hsame]
          exact hmapped
        obtain ⟨c, hc⟩ := Option.isSome_iff_exists.mp (isSome_readByte.mpr hy)
        exact ⟨c, hc, fun hc0 ↦ hnul ⟨y, hlo, hhi, hc0 ▸ hc⟩⟩
      exact Or.inr (Or.inr ⟨(h _ hnext).2.2, (h _ hnext).1⟩)
  · exact Or.inl hregion

theorem safe_of_covered {k : Kernel} {i a : ℕ} (h : PutsCovered k i a) : PutsSafe k i a := by
  intro x hx
  by_cases hregion : InUserRegion a
  · obtain ⟨hmapped, hcover⟩ := h.resolve_left fun hout ↦ hout hregion
    rw [reads_of_region hregion, mem_reads_putsLoop] at hx
    obtain ⟨hlo, hhi, hbytes⟩ := hx
    obtain ⟨hfirst, hlast⟩ := hregion
    rw [userImageBase] at hfirst
    rw [userRegionEnd] at hlast
    by_cases hpage : x < nextPage a
    · have hsame : x / 4096 = a / 4096 := by
        rw [nextPage] at hpage
        omega
      refine ⟨by rw [HwMapped, hsame]; exact hmapped, ?_⟩
      rw [InUserRegion, userImageBase, userRegionEnd]
      omega
    · rw [not_lt] at hpage
      rcases hcover with haligned | ⟨y, hylo, hyhi, hnul⟩ | ⟨hend, hnext⟩
      · rw [nextPage] at hpage
        omega
      · obtain ⟨c, hc, hc0⟩ := hbytes y hylo (hyhi.trans_le hpage)
        rw [hnul, Option.some.injEq] at hc
        exact absurd hc.symm hc0
      · rw [nextPage] at hpage
        rw [nextPage, userRegionEnd] at hend
        have hsame : x / 4096 = nextPage a / 4096 := by
          rw [nextPage]
          omega
        refine ⟨by rw [HwMapped, hsame]; exact hnext, ?_⟩
        rw [InUserRegion, userImageBase, userRegionEnd]
        omega
  · rw [sysPuts, if_pos ?_] at hx
    · exact absurd hx List.not_mem_nil
    · rw [InUserRegion, not_and_or, not_le, not_lt] at hregion
      exact hregion

/-- `sys_puts` reads mapped addresses of the user region only, exactly when its string is covered. -/
theorem putsSafe_iff (k : Kernel) (i a : ℕ) : PutsSafe k i a ↔ PutsCovered k i a :=
  ⟨covered_of_safe, safe_of_covered⟩

/-- A task allocates one heap page and stores a character in its last byte. -/
def lastByteOps : List Op :=
  [.spawn [] 0, .alloc 1 4096, .store 1 (userHeapBase + 4095) 0x41]

/-- The string at the last byte of the heap runs into a page that is not mapped. -/
theorem putsSafe_fails_at_page_end : Booted smallKernel ∧
    Run step CanHappen smallKernel (lastByteOps.foldl step smallKernel) ∧
    ((lastByteOps.foldl step smallKernel).tasks 1).Live ∧
    ¬ PutsSafe (lastByteOps.foldl step smallKernel) 1 (userHeapBase + 4095) := by
  have hrun : Admits step CanHappen smallKernel lastByteOps ∧
      ((lastByteOps.foldl step smallKernel).tasks 1).Live ∧
      readByte (lastByteOps.foldl step smallKernel).machine.mem
        ((lastByteOps.foldl step smallKernel).tasks 1).cr3 (userHeapBase + 4095) = some 0x41 ∧
      ¬ HwMapped (lastByteOps.foldl step smallKernel).machine.mem
        ((lastByteOps.foldl step smallKernel).tasks 1).cr3 (userHeapBase + 4096) := by
    decide +kernel
  obtain ⟨hadmits, hlive, hbyte, hunmapped⟩ := hrun
  refine ⟨smallKernel_booted, Run.refl.of_admits lastByteOps hadmits, hlive, fun h ↦ ?_⟩
  rw [PutsSafe, reads_of_region (by decide)] at h
  refine hunmapped (h (userHeapBase + 4096) (mem_reads_putsLoop.mpr ⟨by omega, by omega, ?_⟩)).1
  intro y hlo hhi
  rw [show y = userHeapBase + 4095 by omega]
  exact ⟨0x41, hbyte, by decide⟩

end NoOsKernel.Mm
