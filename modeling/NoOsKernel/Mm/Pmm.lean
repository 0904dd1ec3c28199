import NoOsKernel.Lib.BitArray
import NoOsKernel.Lib.Buf

/-!
# Physical frames

The frame allocator of `kernel/mm/pmm.c`: one bit per 4 KiB frame, first fit. `pmm_alloc_frame`
returns the address of the frame, and `0` when there is none; frame `0` is reserved at boot, which
is what makes `0` a usable failure value (`PmmOk`).

`kmalloc` is seen through its demand for frames only: a request either fits the free list, or the
heap first takes a run of frames from this allocator and fails when there is none.
-/

set_option autoImplicit false
set_option relaxedAutoImplicit false

namespace NoOsKernel.Mm

open Lib

/-- `FRAME_SIZE`. -/
def frameSize : ℕ := 4096

/-- The bitmap and the two counters. -/
structure Pmm where
  bitmap : List Byte
  totalFrames : ℕ
  freeFrames : ℕ

/-- A `u64` counter, one less. -/
def decU64 (n : ℕ) : ℕ := (n + 2 ^ 64 - 1) % 2 ^ 64

/-- `pmm_alloc_frame`. -/
def pmmAllocFrame (p : Pmm) : ℕ × Pmm :=
  match firstClear p.bitmap 0 p.totalFrames with
  | none => (0, p)
  | some i =>
    (i * frameSize, { p with bitmap := bitSet p.bitmap i, freeFrames := decU64 p.freeFrames })

/-- The search of `pmm_alloc_frames`: `need` clear frames have been seen in a row. -/
def findRun (bitmap : List Byte) (count : ℕ) : ℕ → List ℕ → Option ℕ
  | _, [] => none
  | need, i :: rest =>
    if bitGet bitmap i then findRun bitmap count 0 rest
    else if need + 1 = count then some (i - need)
    else findRun bitmap count (need + 1) rest

/-- The loop of `pmm_alloc_frames` that takes the frames of a run. -/
def takeRun (p : Pmm) (base count : ℕ) : Pmm :=
  (List.range count).foldl (fun p j ↦
    { p with bitmap := bitSet p.bitmap (base + j), freeFrames := decU64 p.freeFrames }) p

/-- `pmm_alloc_frames`. -/
def pmmAllocFrames (p : Pmm) (count : ℕ) : ℕ × Pmm :=
  match findRun p.bitmap count 0 (List.range p.totalFrames) with
  | none => (0, p)
  | some base => (base * frameSize, takeRun p base count)

/-- `pmm_free_frame`. -/
def pmmFreeFrame (p : Pmm) (addr : ℕ) : Pmm :=
  if addr / frameSize < p.totalFrames ∧ bitGet p.bitmap (addr / frameSize) = true then
    { p with
      bitmap := bitClr p.bitmap (addr / frameSize)
      freeFrames := (p.freeFrames + 1) % 2 ^ 64 }
  else p

/-- `pmm_free_frames`. -/
def pmmFreeFrames (p : Pmm) (addr count : ℕ) : Pmm :=
  (List.range count).foldl (fun p j ↦ pmmFreeFrame p ((addr + j * frameSize) % 2 ^ 64)) p

/-- A step of the loop of `pmm_reserve`. -/
def reserveFrame (p : Pmm) (i : ℕ) : Pmm :=
  if bitGet p.bitmap i then p
  else { p with bitmap := bitSet p.bitmap i, freeFrames := decU64 p.freeFrames }

/-- `pmm_reserve`. -/
def pmmReserve (p : Pmm) (addr len : ℕ) : Pmm :=
  let first := addr / frameSize
  let last := min ((addr + len + frameSize - 1) % 2 ^ 64 / frameSize) p.totalFrames
  (List.range' first (last - first)).foldl reserveFrame p

/-- The loop of `pmm_init` over the memory map of the boot loader, which ends at `stop`. Its step is
a 32-bit sum. -/
def reserveMap (mem : Mem) (stop : ℕ) : ℕ → ℕ → Pmm → Option Pmm
  | 0, _, _ => none
  | fuel + 1, a, p =>
    if a + 20 ≤ stop then
      let sz := mem.load 4 a
      if sz < 20 then some p
      else
        let p := if mem.load 4 (a + 20) ≠ 1 then
            pmmReserve p (mem.load 8 (a + 4)) (mem.load 8 (a + 12))
          else p
        reserveMap mem stop fuel (a + (sz + 4) % 2 ^ 32) p
    else some p

/-- `pmm_init` on what the boot loader has left in memory, with a kernel image between the two
addresses; `none` while the walk over the memory map has not ended. -/
def pmmInit (mem : Mem) (mbInfo kernelStart kernelEnd fuel : ℕ) : Option Pmm :=
  let flags := mem.load 4 mbInfo
  let memUpper := mem.load 4 ((mbInfo + 8) % 2 ^ 32)
  let memBytes := min (0x100000 + memUpper * 1024) 0x40000000
  let p : Pmm :=
    { bitmap := List.replicate (2 ^ 15) 0
      totalFrames := memBytes / frameSize
      freeFrames := memBytes / frameSize }
  let p := pmmReserve p 0 0x100000
  let p := pmmReserve p kernelStart ((kernelEnd + 2 ^ 64 - kernelStart) % 2 ^ 64)
  let p := pmmReserve p mbInfo 4096
  if flags &&& 0x40 = 0 then some p
  else
    let a := mem.load 4 ((mbInfo + 48) % 2 ^ 32)
    reserveMap mem (a + mem.load 4 ((mbInfo + 44) % 2 ^ 32)) fuel a p

/-- `kmalloc`, for a request that needs `frames` more frames; `0` frames is a request the free list
serves. The flag is `false` for `NULL`. -/
def kmalloc (p : Pmm) (frames : ℕ) : Bool × Pmm :=
  if frames = 0 then (true, p)
  else ((pmmAllocFrames p frames).1 ≠ 0, (pmmAllocFrames p frames).2)

/-! ### Marks -/

/-- A frame is in use. -/
def Marked (p : Pmm) (f : ℕ) : Prop := f < p.totalFrames ∧ bitGet p.bitmap f = true

/-- The bitmap covers the frames, and frame `0` is reserved. -/
structure PmmOk (p : Pmm) : Prop where
  covers : p.totalFrames ≤ bitLen p.bitmap
  addressable : p.totalFrames ≤ 2 ^ 18
  zero : bitGet p.bitmap 0 = true

variable {p p' : Pmm}

/-- What `pmm_alloc_frame` does: nothing, or it marks a frame that was free. -/
theorem pmmAllocFrame_spec (h : PmmOk p) : pmmAllocFrame p = (0, p) ∨
    ∃ f p', pmmAllocFrame p = (f * frameSize, p') ∧ 0 < f ∧ f < p.totalFrames ∧ ¬ Marked p f ∧
      PmmOk p' ∧ p'.totalFrames = p.totalFrames ∧ ∀ k, Marked p' k ↔ Marked p k ∨ k = f := by
  rcases hfirst : firstClear p.bitmap 0 p.totalFrames with - | f
  · exact Or.inl (by rw [pmmAllocFrame, hfirst])
  · obtain ⟨-, hlt, hclear⟩ := firstClear_eq_some hfirst
    have hlen : f < bitLen p.bitmap := hlt.trans_le h.covers
    have hpos : f ≠ 0 := by
      rintro rfl
      rw [h.zero] at hclear
      exact Bool.noConfusion hclear
    refine Or.inr ⟨f, { p with bitmap := bitSet p.bitmap f, freeFrames := decU64 p.freeFrames },
      by rw [pmmAllocFrame, hfirst], Nat.pos_of_ne_zero hpos, hlt, ?_, ?_, rfl, ?_⟩
    · rintro ⟨-, hbit⟩
      rw [hclear] at hbit
      exact Bool.noConfusion hbit
    · refine ⟨?_, h.addressable, ?_⟩
      · rw [bitLen, length_bitSet]
        exact h.covers
      · rw [bitGet_bitSet hlen, h.zero, Bool.or_true]
    · intro k
      simp only [Marked, bitGet_bitSet hlen, Bool.or_eq_true, decide_eq_true_eq]
      constructor
      · rintro ⟨hk, rfl | hbit⟩
        · exact Or.inr rfl
        · exact Or.inl ⟨hk, hbit⟩
      · rintro (⟨hk, hbit⟩ | rfl)
        · exact ⟨hk, Or.inr hbit⟩
        · exact ⟨hlt, Or.inl rfl⟩

/-- `pmm_free_frame` takes the mark of one frame at most. -/
theorem pmmFreeFrame_spec (h : PmmOk p) {addr : ℕ} (hpos : addr / frameSize ≠ 0) :
    PmmOk (pmmFreeFrame p addr) ∧ (pmmFreeFrame p addr).totalFrames = p.totalFrames ∧
      ∀ k ≠ addr / frameSize, Marked p k → Marked (pmmFreeFrame p addr) k := by
  rw [pmmFreeFrame]
  split_ifs with hmarked
  · have hlen : addr / frameSize < bitLen p.bitmap := hmarked.1.trans_le h.covers
    refine ⟨⟨?_, h.addressable, ?_⟩, rfl, fun k hk hold ↦ ⟨hold.1, ?_⟩⟩
    · rw [bitLen, length_bitClr]
      exact h.covers
    · rw [bitGet_bitClr hlen, h.zero, decide_eq_false (Ne.symm hpos)]
      rfl
    · rw [bitGet_bitClr hlen, hold.2, decide_eq_false hk]
      rfl
  · exact ⟨h, rfl, fun _ _ hold ↦ hold⟩

/-- Only the frame of the address matters. -/
theorem pmmFreeFrame_div_mul (p : Pmm) (addr : ℕ) :
    pmmFreeFrame p (addr / frameSize * frameSize) = pmmFreeFrame p addr := by
  rw [pmmFreeFrame, pmmFreeFrame, Nat.mul_div_cancel _ (by decide : 0 < frameSize)]

/-- Freeing frames one after the other takes only their marks. -/
theorem foldl_pmmFreeFrame (h : PmmOk p) (addrs : List ℕ)
    (hpos : ∀ a ∈ addrs, a / frameSize ≠ 0) :
    PmmOk (addrs.foldl pmmFreeFrame p) ∧
      (addrs.foldl pmmFreeFrame p).totalFrames = p.totalFrames ∧
      ∀ k, Marked p k → Marked (addrs.foldl pmmFreeFrame p) k ∨
        ∃ a ∈ addrs, a / frameSize = k := by
  induction addrs generalizing p with
  | nil => exact ⟨h, rfl, fun k hk ↦ Or.inl hk⟩
  | cons a rest ih =>
    obtain ⟨hok, htotal, hkeep⟩ := pmmFreeFrame_spec h (hpos a (List.mem_cons_self ..))
    obtain ⟨hok', htotal', hkeep'⟩ := ih hok fun b hb ↦ hpos b (List.mem_cons_of_mem _ hb)
    refine ⟨hok', htotal'.trans htotal, fun k hk ↦ ?_⟩
    by_cases hka : k = a / frameSize
    · exact Or.inr ⟨a, List.mem_cons_self .., hka.symm⟩
    · rcases hkeep' k (hkeep k hka hk) with hleft | ⟨b, hb, heq⟩
      · exact Or.inl hleft
      · exact Or.inr ⟨b, List.mem_cons_of_mem _ hb, heq⟩

/-- Taking frames keeps the marks there are. -/
theorem takeRun_spec (h : PmmOk p) (base count : ℕ) :
    PmmOk (takeRun p base count) ∧ (takeRun p base count).totalFrames = p.totalFrames ∧
      ∀ k, Marked p k → Marked (takeRun p base count) k := by
  have hloop : ∀ (js : List ℕ) (q : Pmm), PmmOk q →
      PmmOk (js.foldl (fun p j ↦ ({ p with
        bitmap := bitSet p.bitmap (base + j), freeFrames := decU64 p.freeFrames } : Pmm)) q) ∧
      (js.foldl (fun p j ↦ ({ p with
        bitmap := bitSet p.bitmap (base + j), freeFrames := decU64 p.freeFrames } : Pmm))
        q).totalFrames = q.totalFrames ∧
      ∀ k, Marked q k → Marked (js.foldl (fun p j ↦ ({ p with
        bitmap := bitSet p.bitmap (base + j), freeFrames := decU64 p.freeFrames } : Pmm)) q) k := by
    intro js
    induction js with
    | nil => exact fun q hq ↦ ⟨hq, rfl, fun _ hk ↦ hk⟩
    | cons j rest ih =>
      intro q hq
      have hset : ∀ k, bitGet q.bitmap k = true → bitGet (bitSet q.bitmap (base + j)) k = true := by
        intro k hk
        by_cases hlen : base + j < bitLen q.bitmap
        · rw [bitGet_bitSet hlen, hk, Bool.or_true]
        · rwa [bitSet_of_le (not_lt.mp hlen)]
      obtain ⟨hok, htotal, hkeep⟩ := ih
        { q with bitmap := bitSet q.bitmap (base + j), freeFrames := decU64 q.freeFrames }
        ⟨by rw [bitLen, length_bitSet]; exact hq.covers, hq.addressable, hset 0 hq.zero⟩
      exact ⟨hok, htotal, fun k hk ↦ hkeep k ⟨hk.1, hset k hk.2⟩⟩
  exact hloop (List.range count) p h

/-- `kmalloc` keeps every mark. -/
theorem kmalloc_spec (h : PmmOk p) (frames : ℕ) :
    PmmOk (kmalloc p frames).2 ∧ (kmalloc p frames).2.totalFrames = p.totalFrames ∧
      ∀ k, Marked p k → Marked (kmalloc p frames).2 k := by
  rw [kmalloc]
  split_ifs
  · exact ⟨h, rfl, fun _ hk ↦ hk⟩
  · rw [pmmAllocFrames]
    split
    · exact ⟨h, rfl, fun _ hk ↦ hk⟩
    · exact takeRun_spec h _ _

end NoOsKernel.Mm
