import NoOsKernel.Mm.Frames
import NoOsKernel.Mm.Loading

/-!
# When frames run out

How many frames are left decides which calls fail: an allocation fails when none is left, and a walk
of `vmm_map` fails when it needs more tables than there are frames. A walk needs a table for every
level from the first missing one on (`lackingTables`).
-/

set_option autoImplicit false
set_option relaxedAutoImplicit false

namespace NoOsKernel.Mm

open Lib Lib.Radix

/-- The number of frames that are not in use. -/
def freeCount (p : Pmm) : ℕ := clearCount p.bitmap 0 p.totalFrames

/-- The number of tables a walk to an address has to make. -/
def lackingTables (mem : ℕ → Page) (cr3 va : ℕ) : ℕ :=
  match descend mem cr3 (pml4i va) with
  | none => 3
  | some pdpt =>
    match descend mem pdpt (pdpti va) with
    | none => 2
    | some pd =>
      match descend mem pd (pdi va) with
      | none => 1
      | some _ => 0

variable {p : Pmm} {m m' : Machine} {c : ℕ}

/-- An allocation takes one of the free frames, if there is one. -/
theorem freeCount_alloc (h : PmmOk p) :
    (pmmAllocFrame p = (0, p) ∧ freeCount p = 0) ∨
      ((pmmAllocFrame p).1 ≠ 0 ∧ freeCount (pmmAllocFrame p).2 + 1 = freeCount p) := by
  rcases hfirst : firstClear p.bitmap 0 p.totalFrames with - | f
  · exact Or.inl ⟨by rw [pmmAllocFrame, hfirst], firstClear_eq_none hfirst⟩
  · obtain ⟨hlo, hlt, hclear⟩ := firstClear_eq_some hfirst
    have hne : f ≠ 0 := by
      rintro rfl
      rw [h.zero] at hclear
      exact Bool.noConfusion hclear
    right
    rw [pmmAllocFrame, hfirst]
    exact ⟨Nat.mul_ne_zero hne (by decide),
      clearCount_bitSet hlo hlt (hlt.trans_le h.covers) hclear⟩

theorem pmmOk_alloc (h : PmmOk p) : PmmOk (pmmAllocFrame p).2 := by
  rcases pmmAllocFrame_spec h with hfail | ⟨f, p', heq, -, -, -, hok, -⟩
  · rw [hfail]
    exact h
  · rw [heq]
    exact hok

theorem freeCount_alloc_snd (h : PmmOk p) : freeCount (pmmAllocFrame p).2 = freeCount p - 1 := by
  rcases freeCount_alloc h with ⟨hfail, hzero⟩ | ⟨-, hone⟩
  · rw [hfail, hzero]
  · omega

theorem alloc_eq_zero_iff (h : PmmOk p) : (pmmAllocFrame p).1 = 0 ↔ freeCount p = 0 := by
  rcases freeCount_alloc h with ⟨hfail, hzero⟩ | ⟨hne, hone⟩
  · exact iff_of_true (by rw [hfail]) hzero
  · exact iff_of_false hne (by omega)

theorem noFrame_iff (h : PmmOk p) : NoFrame p ↔ freeCount p = 0 := by
  rcases freeCount_alloc h with ⟨hfail, hzero⟩ | ⟨hne, hone⟩
  · exact iff_of_true hfail hzero
  · refine iff_of_false (fun hnone ↦ hne ?_) (by omega)
    rw [hnone]

/-! ### Taking and giving back -/

/-- Only frames of the machine have changed hands, and the counter has been kept in step. -/
structure Balanced (p p' : Pmm) : Prop where
  total : p'.totalFrames = p.totalFrames
  length : p'.bitmap.length = p.bitmap.length
  beyond : ∀ f, p.totalFrames ≤ f → bitGet p'.bitmap f = bitGet p.bitmap f
  counted : (p'.freeFrames + freeCount p) % 2 ^ 64 = (p.freeFrames + freeCount p') % 2 ^ 64
  small : p.freeFrames < 2 ^ 64 → p'.freeFrames < 2 ^ 64

namespace Balanced

variable {p' p'' : Pmm}

theorem refl (p : Pmm) : Balanced p p := ⟨rfl, rfl, fun _ _ ↦ rfl, rfl, id⟩

theorem trans (h : Balanced p p') (h' : Balanced p' p'') : Balanced p p'' := by
  have hcounted := h.counted
  have hcounted' := h'.counted
  refine ⟨h'.total.trans h.total, h'.length.trans h.length, fun f hf ↦ ?_, by omega,
    h'.small ∘ h.small⟩
  rw [h'.beyond f (h.total ▸ hf), h.beyond f hf]

/-- Marking a clear frame. -/
theorem mark (h : PmmOk p) {f : ℕ} (hlt : f < p.totalFrames) (hclear : bitGet p.bitmap f = false) :
    Balanced p { p with bitmap := bitSet p.bitmap f, freeFrames := decU64 p.freeFrames } := by
  have hlen : f < bitLen p.bitmap := hlt.trans_le h.covers
  have hone := clearCount_bitSet (Nat.zero_le f) hlt hlen hclear
  refine ⟨rfl, length_bitSet .., fun g hg ↦ ?_, ?_, fun _ ↦ Nat.mod_lt _ (by decide)⟩
  · have hne : g ≠ f := by omega
    rw [bitGet_bitSet hlen, decide_eq_false hne, Bool.false_or]
  · simp only [freeCount, decU64]
    omega

theorem alloc (h : PmmOk p) : Balanced p (pmmAllocFrame p).2 := by
  rcases hfirst : firstClear p.bitmap 0 p.totalFrames with - | f
  · rw [pmmAllocFrame, hfirst]
    exact refl p
  · obtain ⟨-, hlt, hclear⟩ := firstClear_eq_some hfirst
    rw [pmmAllocFrame, hfirst]
    exact mark h hlt hclear

theorem free (h : PmmOk p) (addr : ℕ) : Balanced p (pmmFreeFrame p addr) := by
  rw [pmmFreeFrame]
  split_ifs with hmarked
  · obtain ⟨hlt, hset⟩ := hmarked
    have hlen : addr / frameSize < bitLen p.bitmap := hlt.trans_le h.covers
    have hone := clearCount_bitClr (Nat.zero_le _) hlt hlen hset
    refine ⟨rfl, length_bitClr .., fun g hg ↦ ?_, ?_, fun _ ↦ Nat.mod_lt _ (by decide)⟩
    · have hne : g ≠ addr / frameSize := by omega
      rw [bitGet_bitClr hlen, decide_eq_false hne, Bool.not_false, Bool.true_and]
    · simp only [freeCount]
      omega
  · exact refl p

/-- Allocators with the same marks are the same. -/
theorem eq_of_marks (h : Balanced p p') (hsmall : p.freeFrames < 2 ^ 64)
    (hmarks : ∀ f, Marked p' f ↔ Marked p f) : p' = p := by
  have hbits : ∀ f, bitGet p'.bitmap f = bitGet p.bitmap f := by
    intro f
    by_cases hf : p.totalFrames ≤ f
    · exact h.beyond f hf
    · have hmark := hmarks f
      rw [Marked, Marked, h.total, and_congr_right_iff] at hmark
      exact Bool.eq_iff_iff.mpr (hmark (by omega))
  have hbitmap : p'.bitmap = p.bitmap := eq_of_bitGet (by decide) h.length hbits
  have hcount : freeCount p' = freeCount p := by
    rw [freeCount, freeCount, hbitmap, h.total]
  have hfree : p'.freeFrames = p.freeFrames := by
    have hcounted := h.counted
    have hsmall' := h.small hsmall
    omega
  obtain ⟨bitmap, total, free⟩ := p
  obtain ⟨bitmap', total', free'⟩ := p'
  exact congr (congr (congrArg Pmm.mk hbitmap) h.total) hfree

end Balanced

/-- What `kmalloc` takes: a run of frames for the heap. -/
structure RunTaken (p p' : Pmm) (base count : ℕ) : Prop where
  ok : PmmOk p'
  balanced : Balanced p p'
  left : freeCount p' + count = freeCount p
  marks : ∀ f, Marked p' f ↔ Marked p f ∨ (base ≤ f ∧ f < base + count)

theorem takeRun_succ (p : Pmm) (base count : ℕ) : takeRun p base (count + 1) =
    { takeRun p base count with
      bitmap := bitSet (takeRun p base count).bitmap (base + count)
      freeFrames := decU64 (takeRun p base count).freeFrames } := by
  rw [takeRun, List.range_succ, List.foldl_append]
  rfl

theorem runTaken_takeRun (h : PmmOk p) {base count : ℕ} (hrun : RunFree p base count) :
    RunTaken p (takeRun p base count) base count := by
  induction count with
  | zero => exact ⟨h, Balanced.refl p, rfl, fun f ↦ (or_iff_left (by omega)).symm⟩
  | succ count ih =>
    obtain ⟨hin, hclear⟩ := hrun
    have hprev := ih ⟨by omega, fun i hlo hhi ↦ hclear i hlo (by omega)⟩
    rw [takeRun_succ]
    set q := takeRun p base count with hq
    have hlt : base + count < q.totalFrames := by
      rw [hprev.balanced.total]
      omega
    have hfree : bitGet q.bitmap (base + count) = false := by
      have hmark := (hprev.marks (base + count)).not
      rw [Marked, not_and, Bool.not_eq_true] at hmark
      refine hmark.mpr ?_ hlt
      rintro (hold | hin')
      · rw [Marked, hclear (base + count) (by omega) (by omega)] at hold
        exact Bool.false_ne_true hold.2
      · omega
    have hlen : base + count < bitLen q.bitmap := hlt.trans_le hprev.ok.covers
    have hone := clearCount_bitSet (Nat.zero_le _) hlt hlen hfree
    refine ⟨⟨?_, hprev.ok.addressable, ?_⟩, hprev.balanced.trans (Balanced.mark hprev.ok hlt hfree),
      ?_, fun f ↦ ?_⟩
    · rw [bitLen, length_bitSet]
      exact hprev.ok.covers
    · rw [bitGet_bitSet hlen, hprev.ok.zero, Bool.or_true]
    · have hleft := hprev.left
      simp only [freeCount] at hleft ⊢
      omega
    · have hmark := hprev.marks f
      simp only [Marked, bitGet_bitSet hlen, Bool.or_eq_true, decide_eq_true_eq] at hmark ⊢
      constructor
      · rintro ⟨hf, rfl | hbit⟩
        · exact Or.inr (by omega)
        · exact (hmark.mp ⟨hf, hbit⟩).imp_right (by omega)
      · rintro (hold | hin')
        · obtain ⟨hf, hbit⟩ := hmark.mpr (Or.inl hold)
          exact ⟨hf, Or.inr hbit⟩
        · by_cases hlast : f = base + count
          · exact ⟨hlast ▸ hlt, Or.inl hlast⟩
          · obtain ⟨hf, hbit⟩ := hmark.mpr (Or.inr (by omega))
            exact ⟨hf, Or.inr hbit⟩

/-- `kmalloc` fails and takes nothing, or takes a run of free frames. -/
theorem kmalloc_cases (h : PmmOk p) (need : ℕ) : kmalloc p need = (false, p) ∨
    ∃ base, kmalloc p need = (true, takeRun p base need) ∧ RunFree p base need := by
  rw [kmalloc]
  split_ifs with hneed
  · refine Or.inr ⟨0, by rw [hneed]; rfl, ?_⟩
    rw [hneed]
    exact ⟨Nat.zero_le _, fun i _ hi ↦ absurd hi (Nat.not_lt_zero i)⟩
  have hspec := findRun_spec p.bitmap need p.totalFrames 0 0 (Nat.pos_of_ne_zero hneed)
    (le_refl 0) fun j _ hj ↦ absurd hj (Nat.not_lt_zero j)
  rw [← List.range_eq_range'] at hspec
  rw [pmmAllocFrames]
  rcases hfind : findRun p.bitmap need 0 (List.range p.totalFrames) with - | base
  · exact Or.inl rfl
  · rw [hfind] at hspec
    obtain ⟨-, hin, hclear⟩ := hspec
    have hpos : base ≠ 0 := by
      rintro rfl
      have hzero := hclear 0 (le_refl 0) (by omega)
      rw [h.zero] at hzero
      cases hzero
    refine Or.inr ⟨base, ?_, by omega, hclear⟩
    simp only [ne_eq, decide_not, Nat.mul_ne_zero hpos (show frameSize ≠ 0 by decide)]
    rfl

/-- The marks after a frame is freed. -/
theorem marked_free (h : PmmOk p) (addr f : ℕ) :
    Marked (pmmFreeFrame p addr) f ↔ Marked p f ∧ addr / frameSize ≠ f := by
  rw [pmmFreeFrame]
  split_ifs with hmarked
  · rw [Marked, bitGet_bitClr (hmarked.1.trans_le h.covers), Marked, Bool.and_eq_true,
      Bool.not_eq_true', decide_eq_false_iff_not, eq_comm (a := f)]
    tauto
  · refine ⟨fun hf ↦ ⟨hf, ?_⟩, And.left⟩
    rintro rfl
    exact hmarked hf

/-- The marks after several frames are freed. -/
theorem marked_frees (h : PmmOk p) (addrs : List ℕ) (hpos : ∀ a ∈ addrs, a / frameSize ≠ 0)
    (f : ℕ) :
    Marked (addrs.foldl pmmFreeFrame p) f ↔ Marked p f ∧ ∀ a ∈ addrs, a / frameSize ≠ f := by
  induction addrs generalizing p with
  | nil => exact (and_iff_left nofun).symm
  | cons a rest ih =>
    obtain ⟨hok, -, -⟩ := pmmFreeFrame_spec h (hpos a (List.mem_cons_self ..))
    rw [List.foldl_cons, ih hok fun b hb ↦ hpos b (List.mem_cons_of_mem _ hb), marked_free h,
      List.forall_mem_cons, and_assoc]

theorem Balanced.frees (h : PmmOk p) (addrs : List ℕ) (hpos : ∀ a ∈ addrs, a / frameSize ≠ 0) :
    Balanced p (addrs.foldl pmmFreeFrame p) := by
  induction addrs generalizing p with
  | nil => exact Balanced.refl p
  | cons a rest ih =>
    obtain ⟨hok, -, -⟩ := pmmFreeFrame_spec h (hpos a (List.mem_cons_self ..))
    exact (Balanced.free h a).trans (ih hok fun b hb ↦ hpos b (List.mem_cons_of_mem _ hb))

/-! ### One level of a walk -/

theorem nextTable_pmm (m : Machine) (table idx : ℕ) (flags : BitVec 8) :
    (nextTable m table idx flags).2.pmm =
      if present (word m.mem table idx) then m.pmm else (pmmAllocFrame m.pmm).2 := by
  rw [nextTable_snd]
  split_ifs
  · rfl
  · exact (ptNew_spec m table idx flags).2.1

/-- A level fails when its table is missing and no frame is left. -/
theorem nextTable_eq_none_iff (h : PmmOk m.pmm) (table idx : ℕ) (flags : BitVec 8) :
    (nextTable m table idx flags).1 = none ↔
      present (word m.mem table idx) = false ∧ freeCount m.pmm = 0 := by
  rw [← alloc_eq_zero_iff h, ← (ptNew_spec m table idx flags).1, nextTable]
  by_cases hpresent : present (word m.mem table idx) = true
  · simp [hpresent]
  · rw [Bool.not_eq_true] at hpresent
    by_cases hzero : (ptNew m table idx flags).1 = 0
    · simp [hpresent, hzero]
    · simp [hpresent, hzero]

/-- A level takes a frame at most, and none when its table is there. -/
theorem nextTable_frames (h : PmmOk m.pmm) (table idx : ℕ) (flags : BitVec 8) :
    PmmOk (nextTable m table idx flags).2.pmm ∧
      freeCount m.pmm ≤ freeCount (nextTable m table idx flags).2.pmm + 1 := by
  rw [nextTable_pmm]
  split_ifs
  · exact ⟨h, Nat.le_succ _⟩
  · refine ⟨pmmOk_alloc h, ?_⟩
    rw [freeCount_alloc_snd h]
    omega

/-- A level that succeeds although a frame may be missing for the next. -/
theorem nextTable_isSome (h : PmmOk m.pmm) (hfree : 0 < freeCount m.pmm) (table idx : ℕ)
    (flags : BitVec 8) : ∃ t, (nextTable m table idx flags).1 = some t := by
  rw [← Option.ne_none_iff_exists', ne_eq, nextTable_eq_none_iff h]
  omega

/-- A level whose table is there. -/
theorem nextTable_of_descend {table idx t : ℕ} (h : descend m.mem table idx = some t)
    (flags : BitVec 8) : nextTable m table idx flags = (some t, m) := by
  rw [descend] at h
  split_ifs at h with hpresent
  rw [nextTable, if_pos hpresent, Option.some.inj h]

/-! ### The walk -/

/-- The last level of a walk. -/
theorem mapWalk_of_two {pdpt pd va : ℕ} {cr3 : ℕ} {flags : BitVec 8} {m₁ m₂ : Machine}
    (hfirst : nextTable m cr3 (pml4i va) (tableFlags flags) = (some pdpt, m₁))
    (hsecond : nextTable m₁ pdpt (pdpti va) (tableFlags flags) = (some pd, m₂)) :
    mapWalk m cr3 va flags = nextTable m₂ pd (pdi va) (tableFlags flags) := by
  rw [mapWalk, hfirst]
  simp only [hsecond]

/-- A walk arrives when there is a frame for every table that it lacks. -/
theorem mapWalk_ne_none (h : PmmOk m.pmm) {cr3 va : ℕ}
    (hlack : lackingTables m.mem cr3 va ≤ freeCount m.pmm) (flags : BitVec 8) :
    (mapWalk m cr3 va flags).1 ≠ none := by
  obtain ⟨pdpt, m₁, hfirst, hok₁, hlack₁⟩ : ∃ pdpt m₁,
      nextTable m cr3 (pml4i va) (tableFlags flags) = (some pdpt, m₁) ∧ PmmOk m₁.pmm ∧
        (2 ≤ freeCount m₁.pmm ∨ (m₁ = m ∧ descend m.mem cr3 (pml4i va) = some pdpt)) := by
    rcases hdescend : descend m.mem cr3 (pml4i va) with - | pdpt
    · rw [lackingTables, hdescend] at hlack
      change 3 ≤ _ at hlack
      obtain ⟨pdpt, hsome⟩ := nextTable_isSome h (by omega) cr3 (pml4i va) (tableFlags flags)
      obtain ⟨hok, hle⟩ := nextTable_frames h cr3 (pml4i va) (tableFlags flags)
      have hleft : 2 ≤ freeCount (nextTable m cr3 (pml4i va) (tableFlags flags)).2.pmm := by omega
      exact ⟨pdpt, _, Prod.ext hsome rfl, hok, Or.inl hleft⟩
    · exact ⟨pdpt, m, nextTable_of_descend hdescend _, h, Or.inr ⟨rfl, rfl⟩⟩
  obtain ⟨pd, m₂, hsecond, hok₂, hlack₂⟩ : ∃ pd m₂,
      nextTable m₁ pdpt (pdpti va) (tableFlags flags) = (some pd, m₂) ∧ PmmOk m₂.pmm ∧
        (1 ≤ freeCount m₂.pmm ∨ ∃ pt, descend m₂.mem pd (pdi va) = some pt) := by
    obtain htwo | ⟨rfl, hdescend⟩ := hlack₁
    · obtain ⟨pd, hsome⟩ := nextTable_isSome hok₁ (by omega) pdpt (pdpti va) (tableFlags flags)
      obtain ⟨hok, hle⟩ := nextTable_frames hok₁ pdpt (pdpti va) (tableFlags flags)
      have hleft : 1 ≤ freeCount (nextTable m₁ pdpt (pdpti va) (tableFlags flags)).2.pmm := by omega
      exact ⟨pd, _, Prod.ext hsome rfl, hok, Or.inl hleft⟩
    · rcases hdescend' : descend m₁.mem pdpt (pdpti va) with - | pd
      · simp only [lackingTables, hdescend, hdescend'] at hlack
        obtain ⟨pd, hsome⟩ := nextTable_isSome hok₁ (by omega) pdpt (pdpti va) (tableFlags flags)
        obtain ⟨hok, hle⟩ := nextTable_frames hok₁ pdpt (pdpti va) (tableFlags flags)
        have hleft : 1 ≤ freeCount (nextTable m₁ pdpt (pdpti va) (tableFlags flags)).2.pmm := by
          omega
        exact ⟨pd, _, Prod.ext hsome rfl, hok, Or.inl hleft⟩
      · refine ⟨pd, m₁, nextTable_of_descend hdescend' _, hok₁, ?_⟩
        rcases hdescend'' : descend m₁.mem pd (pdi va) with - | pt
        · simp only [lackingTables, hdescend, hdescend', hdescend''] at hlack
          exact Or.inl hlack
        · exact Or.inr ⟨pt, rfl⟩
  rw [mapWalk_of_two hfirst hsecond]
  obtain hone | ⟨pt, hdescend⟩ := hlack₂
  · obtain ⟨pt, hsome⟩ := nextTable_isSome hok₂ hone pd (pdi va) (tableFlags flags)
    rw [hsome]
    exact Option.some_ne_none pt
  · rw [nextTable_of_descend hdescend]
    exact Option.some_ne_none pt

/-- What a walk lacks, by the paths of its tables. -/
theorem lackingTables_eq (mem : ℕ → Page) (c va : ℕ) :
    lackingTables mem (c * frameSize) va =
      if node pteFrame mem (some c) [pml4i va] = none then 3
      else if node pteFrame mem (some c) [pdpti va, pml4i va] = none then 2
      else if node pteFrame mem (some c) [pdi va, pdpti va, pml4i va] = none then 1 else 0 := by
  rw [lackingTables, descend_node (show node pteFrame mem (some c) [] = some c from rfl)]
  rcases hpdpt : node pteFrame mem (some c) [pml4i va] with - | g
  · rw [if_pos rfl]
    rfl
  · simp only [Option.map_some, descend_node hpdpt, if_neg (Option.some_ne_none g)]
    rcases hpd : node pteFrame mem (some c) [pdpti va, pml4i va] with - | g'
    · rw [if_pos rfl]
      rfl
    · simp only [Option.map_some, descend_node hpd, if_neg (Option.some_ne_none g')]
      by_cases hpt : node pteFrame mem (some c) [pdi va, pdpti va, pml4i va] = none
      · rw [if_pos hpt, hpt]
        rfl
      · obtain ⟨g'', hsome⟩ := Option.ne_none_iff_exists'.mp hpt
        rw [if_neg hpt, hsome]
        rfl

/-- Below a page table that is there no table is lacking. -/
theorem lackingTables_of_node {mem : ℕ → Page} {va pt : ℕ}
    (h : node pteFrame mem (some c) (tablePath va) = some pt) :
    lackingTables mem (c * frameSize) va = 0 := by
  rw [lackingTables, descend_node (show node pteFrame mem (some c) [] = some c from rfl)]
  rw [tablePath, node] at h
  obtain ⟨g', hpd, -⟩ := Option.bind_eq_some_iff.mp h
  have hpd' := hpd
  rw [node] at hpd'
  obtain ⟨g, hpdpt, -⟩ := Option.bind_eq_some_iff.mp hpd'
  have hpt : node pteFrame mem (some c) [pdi va, pdpti va, pml4i va] = some pt := by
    rw [node]
    exact h
  simp only [hpdpt, Option.map_some, descend_node hpdpt, hpd, descend_node hpd, hpt]

end NoOsKernel.Mm
