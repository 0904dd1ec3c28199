import NoOsKernel.Lib.Runs
import NoOsKernel.Mm.Pmm

/-!
# The frame allocator over whole runs

After `pmm_init` any number of reservations, allocations and frees: the counter of free frames is
the number of clear bits (`PmmCounted`), an allocation finds a frame or a run of frames exactly when
there is one, and a frame is not handed out again before it is freed. The first mebibyte stays
reserved, because nothing below it is ever freed.
-/

set_option autoImplicit false
set_option relaxedAutoImplicit false

namespace NoOsKernel.Mm

open Lib

/-! ### Free frames -/

/-- A frame of the machine that is not in use. -/
def FrameFree (p : Pmm) (i : ℕ) : Prop := i < p.totalFrames ∧ bitGet p.bitmap i = false

/-- `count` frames in a row that are not in use. -/
def RunFree (p : Pmm) (base count : ℕ) : Prop :=
  base + count ≤ p.totalFrames ∧ ∀ i, base ≤ i → i < base + count → bitGet p.bitmap i = false

/-- The allocator has marked precisely the frames that satisfy `taken`. -/
def Takes (p p' : Pmm) (taken : ℕ → Prop) : Prop :=
  p'.totalFrames = p.totalFrames ∧
    ∀ i, bitGet p'.bitmap i = true ↔ bitGet p.bitmap i = true ∨ taken i

/-- The bitmap covers the frames and the counter is in step with it. -/
structure PmmCounted (p : Pmm) : Prop where
  covers : p.totalFrames ≤ bitLen p.bitmap
  addressable : p.totalFrames ≤ 2 ^ 18
  count : p.freeFrames = clearCount p.bitmap 0 p.totalFrames

variable {p p' : Pmm} {i : ℕ}

theorem Takes.refl {taken : ℕ → Prop} (h : ∀ i, taken i → bitGet p.bitmap i = true) :
    Takes p p taken := by
  refine ⟨rfl, fun i ↦ ⟨Or.inl, ?_⟩⟩
  rintro (hbit | htaken)
  · exact hbit
  · exact h i htaken

theorem decU64_eq {n : ℕ} (hpos : 0 < n) (hle : n ≤ 2 ^ 18) : decU64 n = n - 1 := by
  rw [decU64]
  omega

/-- Marking a free frame. -/
theorem PmmCounted.mark (h : PmmCounted p) (hfree : FrameFree p i) :
    PmmCounted { p with bitmap := bitSet p.bitmap i, freeFrames := decU64 p.freeFrames } ∧
      Takes p { p with bitmap := bitSet p.bitmap i, freeFrames := decU64 p.freeFrames }
        (fun j ↦ j = i) := by
  obtain ⟨hlt, hclear⟩ := hfree
  have hlen : i < bitLen p.bitmap := hlt.trans_le h.covers
  have hone := clearCount_bitSet (Nat.zero_le i) hlt hlen hclear
  have hle := clearCount_le p.bitmap 0 p.totalFrames
  have htotal := h.addressable
  refine ⟨⟨?_, h.addressable, ?_⟩, rfl, fun j ↦ ?_⟩
  · rw [bitLen, length_bitSet]
    exact h.covers
  · change decU64 p.freeFrames = clearCount (bitSet p.bitmap i) 0 p.totalFrames
    rw [h.count, decU64_eq (by omega) (by omega)]
    omega
  · rw [bitGet_bitSet hlen, Bool.or_eq_true, decide_eq_true_eq]
    exact or_comm

/-! ### Reservations -/

theorem PmmCounted.reserveFrame (h : PmmCounted p) (hlt : i < p.totalFrames) :
    PmmCounted (reserveFrame p i) ∧ Takes p (reserveFrame p i) (fun j ↦ j = i) := by
  rw [Mm.reserveFrame]
  split_ifs with hbit
  · refine ⟨h, Takes.refl ?_⟩
    rintro j rfl
    exact hbit
  · exact h.mark ⟨hlt, Bool.not_eq_true _ ▸ hbit⟩

/-- The loop of `pmm_reserve`. -/
theorem PmmCounted.reserveFrames (h : PmmCounted p) (is : List ℕ)
    (his : ∀ i ∈ is, i < p.totalFrames) :
    PmmCounted (is.foldl Mm.reserveFrame p) ∧
      Takes p (is.foldl Mm.reserveFrame p) (fun i ↦ i ∈ is) := by
  induction is generalizing p with
  | nil => exact ⟨h, Takes.refl fun i hi ↦ absurd hi List.not_mem_nil⟩
  | cons i is ih =>
    obtain ⟨hone, htotal, hbits⟩ := h.reserveFrame (his i List.mem_cons_self)
    obtain ⟨hall, htotal', hbits'⟩ := ih hone fun j hj ↦ by
      rw [htotal]
      exact his j (List.mem_cons_of_mem i hj)
    refine ⟨hall, htotal'.trans htotal, fun j ↦ ?_⟩
    rw [List.foldl_cons, hbits' j, hbits j, or_assoc]
    exact or_congr_right List.mem_cons.symm

theorem PmmCounted.reserve (h : PmmCounted p) (addr len : ℕ) :
    PmmCounted (pmmReserve p addr len) ∧ Takes p (pmmReserve p addr len) (fun i ↦
      addr / frameSize ≤ i ∧ i < min ((addr + len + frameSize - 1) % 2 ^ 64 / frameSize)
        p.totalFrames) := by
  have hmem : ∀ i, i ∈ List.range' (addr / frameSize)
      (min ((addr + len + frameSize - 1) % 2 ^ 64 / frameSize) p.totalFrames - addr / frameSize) ↔
      addr / frameSize ≤ i ∧ i < min ((addr + len + frameSize - 1) % 2 ^ 64 / frameSize)
        p.totalFrames := by
    intro i
    rw [List.mem_range'_1]
    omega
  obtain ⟨hall, htotal, hbits⟩ := h.reserveFrames _ fun i hi ↦
    ((hmem i).mp hi).2.trans_le (Nat.min_le_right _ _)
  exact ⟨hall, htotal, fun i ↦ (hbits i).trans (or_congr_right (hmem i))⟩

/-! ### Frees -/

theorem PmmCounted.free (h : PmmCounted p) (addr : ℕ) :
    PmmCounted (pmmFreeFrame p addr) ∧ (pmmFreeFrame p addr).totalFrames = p.totalFrames ∧
      ∀ i ≠ addr / frameSize, bitGet (pmmFreeFrame p addr).bitmap i = bitGet p.bitmap i := by
  rw [pmmFreeFrame]
  split_ifs with hmarked
  · obtain ⟨hlt, hset⟩ := hmarked
    have hlen : addr / frameSize < bitLen p.bitmap := hlt.trans_le h.covers
    have hone := clearCount_bitClr (Nat.zero_le _) hlt hlen hset
    have hle := clearCount_le p.bitmap 0 p.totalFrames
    have htotal := h.addressable
    refine ⟨⟨?_, h.addressable, ?_⟩, rfl, fun i hi ↦ ?_⟩
    · rw [bitLen, length_bitClr]
      exact h.covers
    · change (p.freeFrames + 1) % 2 ^ 64 = clearCount (bitClr p.bitmap (addr / frameSize)) 0 _
      rw [hone, h.count]
      omega
    · rw [bitGet_bitClr hlen, decide_eq_false hi]
      simp
  · exact ⟨h, rfl, fun _ _ ↦ rfl⟩

/-- The loop of `pmm_free_frames`. -/
theorem PmmCounted.frees (h : PmmCounted p) (addrs : List ℕ) :
    PmmCounted (addrs.foldl pmmFreeFrame p) ∧
      (addrs.foldl pmmFreeFrame p).totalFrames = p.totalFrames ∧
      ∀ i, (∀ a ∈ addrs, a / frameSize ≠ i) →
        bitGet (addrs.foldl pmmFreeFrame p).bitmap i = bitGet p.bitmap i := by
  induction addrs generalizing p with
  | nil => exact ⟨h, rfl, fun _ _ ↦ rfl⟩
  | cons a addrs ih =>
    obtain ⟨hone, htotal, hbits⟩ := h.free a
    obtain ⟨hall, htotal', hbits'⟩ := ih hone
    refine ⟨hall, htotal'.trans htotal, fun i hi ↦ ?_⟩
    rw [List.foldl_cons, hbits' i fun b hb ↦ hi b (List.mem_cons_of_mem a hb)]
    exact hbits i (hi a List.mem_cons_self).symm

/-- The addresses `pmm_free_frames` frees. -/
def freedAddrs (addr count : ℕ) : List ℕ :=
  (List.range count).map fun j ↦ (addr + j * frameSize) % 2 ^ 64

theorem pmmFreeFrames_eq (p : Pmm) (addr count : ℕ) :
    pmmFreeFrames p addr count = (freedAddrs addr count).foldl pmmFreeFrame p := by
  rw [freedAddrs, List.foldl_map]
  rfl

/-! ### Allocations -/

/-- The search for a run. So far the `need` frames before `i` are free. -/
theorem findRun_spec (bitmap : List Byte) (count : ℕ) :
    ∀ (n i need : ℕ), need < count → need ≤ i →
      (∀ j, i - need ≤ j → j < i → bitGet bitmap j = false) →
      match findRun bitmap count need (List.range' i n) with
      | some base => i - need ≤ base ∧ base + count ≤ i + n ∧
        ∀ j, base ≤ j → j < base + count → bitGet bitmap j = false
      | none => ∀ base, i - need ≤ base → base + count ≤ i + n →
        ∃ j, base ≤ j ∧ j < base + count ∧ bitGet bitmap j = true
  | 0, i, need, hneed, hle, hclear => by
    change ∀ base, _ → _ → _
    intro base hlo hhi
    omega
  | n + 1, i, need, hneed, hle, hclear => by
    rw [List.range'_succ, findRun]
    split_ifs with hbit hfull
    · -- the run is broken: a run that reaches back over `i` contains it
      have hrest := findRun_spec bitmap count n (i + 1) 0 (by omega) (by omega)
        fun j hlo hhi ↦ absurd hhi (by omega)
      split at hrest
      · exact ⟨by omega, by omega, hrest.2.2⟩
      · intro base hlo hhi
        by_cases hover : base ≤ i
        · exact ⟨i, hover, by omega, hbit⟩
        · exact hrest base (by omega) (by omega)
    · refine ⟨le_rfl, by omega, fun j hlo hhi ↦ ?_⟩
      by_cases hlast : j = i
      · rw [hlast]
        exact Bool.not_eq_true _ ▸ hbit
      · exact hclear j hlo (by omega)
    · have hrest := findRun_spec bitmap count n (i + 1) (need + 1) (by omega) (by omega) (by
        intro j hlo hhi
        by_cases hlast : j = i
        · rw [hlast]
          exact Bool.not_eq_true _ ▸ hbit
        · exact hclear j (by omega) (by omega))
      split at hrest
      · exact ⟨by omega, by omega, hrest.2.2⟩
      · intro base hlo hhi
        exact hrest base (by omega) (by omega)

/-- The loop that takes a run. -/
theorem PmmCounted.takeRun (h : PmmCounted p) {base count : ℕ} (hrun : RunFree p base count) :
    PmmCounted (takeRun p base count) ∧
      Takes p (takeRun p base count) (fun i ↦ base ≤ i ∧ i < base + count) := by
  induction count with
  | zero => exact ⟨h, Takes.refl fun i hi ↦ absurd hi (by omega)⟩
  | succ count ih =>
    obtain ⟨hprev, htotal, hbits⟩ := ih ⟨by have := hrun.1; omega, fun i hlo hhi ↦
      hrun.2 i hlo (by omega)⟩
    have hfree : FrameFree (Mm.takeRun p base count) (base + count) := by
      refine ⟨by have := hrun.1; omega, ?_⟩
      rw [← Bool.not_eq_true, hbits, hrun.2 (base + count) (by omega) (by omega)]
      rintro (hset | hin)
      · cases hset
      · omega
    have heq : Mm.takeRun p base (count + 1) =
        { Mm.takeRun p base count with
          bitmap := bitSet (Mm.takeRun p base count).bitmap (base + count)
          freeFrames := decU64 (Mm.takeRun p base count).freeFrames } := by
      rw [Mm.takeRun, List.range_succ, List.foldl_append]
      rfl
    obtain ⟨hnext, htotal', hbits'⟩ := hprev.mark hfree
    rw [heq]
    refine ⟨hnext, htotal'.trans htotal, fun i ↦ ?_⟩
    rw [hbits' i, hbits i, or_assoc]
    refine or_congr_right ?_
    omega

/-! ### Calls -/

/-- The allocator after `pmm_init`: in step, with the first mebibyte in use. -/
structure PmmInv (p : Pmm) : Prop where
  counted : PmmCounted p
  low : ∀ i < 256, bitGet p.bitmap i = true

/-- A frame with a mark is not free, and the first 256 have one. -/
theorem PmmInv.le_of_clear (h : PmmInv p) (hclear : bitGet p.bitmap i = false) : 256 ≤ i := by
  by_contra hlt
  rw [h.low i (by omega)] at hclear
  cases hclear

/-- `pmm_alloc_frame` succeeds exactly when there is a free frame. -/
theorem PmmInv.alloc (h : PmmInv p) :
    ((∃ i, FrameFree p i) → ∃ i, FrameFree p i ∧ (pmmAllocFrame p).1 = i * frameSize ∧
      (pmmAllocFrame p).1 ≠ 0 ∧ PmmCounted (pmmAllocFrame p).2 ∧
      Takes p (pmmAllocFrame p).2 (fun j ↦ j = i)) ∧
    ((¬ ∃ i, FrameFree p i) → pmmAllocFrame p = (0, p)) := by
  unfold pmmAllocFrame
  cases hfirst : firstClear p.bitmap 0 p.totalFrames with
  | none =>
    refine ⟨?_, fun _ ↦ rfl⟩
    rintro ⟨i, hlt, hclear⟩
    rw [bitGet_of_firstClear_eq_none hfirst (Nat.zero_le i) hlt] at hclear
    cases hclear
  | some i =>
    obtain ⟨-, hlt, hclear⟩ := firstClear_eq_some hfirst
    refine ⟨fun _ ↦ ⟨i, ⟨hlt, hclear⟩, rfl, ?_, h.counted.mark ⟨hlt, hclear⟩⟩, fun hnone ↦ ?_⟩
    · have hle := h.le_of_clear hclear
      change i * frameSize ≠ 0
      rw [frameSize]
      omega
    · exact absurd ⟨i, hlt, hclear⟩ hnone

/-- `pmm_alloc_frames` succeeds exactly when there is a run of free frames. -/
theorem PmmInv.allocRun (h : PmmInv p) {count : ℕ} (hcount : 1 ≤ count) :
    ((∃ base, RunFree p base count) → ∃ base, RunFree p base count ∧
      (pmmAllocFrames p count).1 = base * frameSize ∧ (pmmAllocFrames p count).1 ≠ 0 ∧
      PmmCounted (pmmAllocFrames p count).2 ∧
      Takes p (pmmAllocFrames p count).2 (fun j ↦ base ≤ j ∧ j < base + count)) ∧
    ((¬ ∃ base, RunFree p base count) → pmmAllocFrames p count = (0, p)) := by
  have hspec := findRun_spec p.bitmap count p.totalFrames 0 0 (by omega) le_rfl
    fun j _ hhi ↦ absurd hhi (by omega)
  rw [← List.range_eq_range'] at hspec
  unfold pmmAllocFrames
  split at hspec
  · rename_i base hfound
    rw [hfound]
    obtain ⟨-, hhi, hclear⟩ := hspec
    have hrun : RunFree p base count := ⟨by omega, hclear⟩
    refine ⟨fun _ ↦ ⟨base, hrun, rfl, ?_, h.counted.takeRun hrun⟩, fun hnone ↦ ?_⟩
    · have hle := h.le_of_clear (hclear base le_rfl (by omega))
      change base * frameSize ≠ 0
      rw [frameSize]
      omega
    · exact absurd ⟨base, hrun⟩ hnone
  · rename_i hnone
    rw [hnone]
    refine ⟨?_, fun _ ↦ rfl⟩
    rintro ⟨base, hhi, hclear⟩
    obtain ⟨j, hlo, hlt, hset⟩ := hspec base (Nat.zero_le _) (by omega)
    rw [hclear j hlo hlt] at hset
    cases hset

/-- The calls of the allocator. -/
inductive PmmCall where
  | reserve (addr len : ℕ)
  | alloc
  | allocRun (count : ℕ)
  | free (addr : ℕ)
  | freeRun (addr count : ℕ)

/-- The allocator after a call. -/
def pmmCall (p : Pmm) : PmmCall → Pmm
  | .reserve addr len => pmmReserve p addr len
  | .alloc => (pmmAllocFrame p).2
  | .allocRun count => (pmmAllocFrames p count).2
  | .free addr => pmmFreeFrame p addr
  | .freeRun addr count => pmmFreeFrames p addr count

/-- The frames a call frees. -/
def PmmCall.Frees : PmmCall → ℕ → Prop
  | .free addr, i => addr / frameSize = i
  | .freeRun addr count, i => ∃ a ∈ freedAddrs addr count, a / frameSize = i
  | _, _ => False

/-- A call frees nothing below the first mebibyte. -/
def PmmCall.Allowed : PmmCall → Prop
  | .free addr => 2 ^ 20 ≤ addr
  | .freeRun addr count => ∀ a ∈ freedAddrs addr count, 2 ^ 20 ≤ a
  | _ => True

/-- The frames a call hands out. -/
def HandsOut (p : Pmm) : PmmCall → ℕ → Prop
  | .alloc, i => (pmmAllocFrame p).1 ≠ 0 ∧ i = (pmmAllocFrame p).1 / frameSize
  | .allocRun count, i => (pmmAllocFrames p count).1 ≠ 0 ∧
    (pmmAllocFrames p count).1 / frameSize ≤ i ∧
    i < (pmmAllocFrames p count).1 / frameSize + count
  | _, _ => False

theorem findRun_zero (bitmap : List Byte) (is : List ℕ) (need : ℕ) :
    findRun bitmap 0 need is = none := by
  induction is generalizing need with
  | nil => rfl
  | cons i is ih =>
    rw [findRun, ih, ih, if_neg (Nat.succ_ne_zero need)]
    split_ifs <;> rfl

/-- A call keeps the allocator in step, keeps every mark it does not free, and marks what it hands
out, which was free. -/
theorem PmmInv.call (h : PmmInv p) (c : PmmCall) :
    PmmCounted (pmmCall p c) ∧
      (∀ i, ¬ c.Frees i → bitGet p.bitmap i = true → bitGet (pmmCall p c).bitmap i = true) ∧
      ∀ i, HandsOut p c i → bitGet p.bitmap i = false ∧ bitGet (pmmCall p c).bitmap i = true := by
  cases c with
  | reserve addr len =>
    obtain ⟨hcounted, -, hbits⟩ := h.counted.reserve addr len
    exact ⟨hcounted, fun i _ hset ↦ (hbits i).mpr (Or.inl hset), fun i hout ↦ absurd hout id⟩
  | alloc =>
    obtain ⟨hsome, hnone⟩ := h.alloc
    by_cases hfree : ∃ i, FrameFree p i
    · obtain ⟨i, hi, haddr, -, hcounted, -, hbits⟩ := hsome hfree
      refine ⟨hcounted, fun j _ hset ↦ (hbits j).mpr (Or.inl hset), ?_⟩
      rintro j ⟨-, rfl⟩
      rw [haddr, Nat.mul_div_cancel _ (by decide)]
      exact ⟨hi.2, (hbits i).mpr (Or.inr rfl)⟩
    · change PmmCounted (pmmAllocFrame p).2 ∧ _
      rw [pmmCall, hnone hfree]
      refine ⟨h.counted, fun j _ hset ↦ hset, ?_⟩
      rintro j ⟨hne, -⟩
      rw [hnone hfree] at hne
      exact absurd rfl hne
  | allocRun count =>
    by_cases hfree : 1 ≤ count ∧ ∃ base, RunFree p base count
    · obtain ⟨base, hrun, haddr, -, hcounted, -, hbits⟩ := (h.allocRun hfree.1).1 hfree.2
      refine ⟨hcounted, fun j _ hset ↦ (hbits j).mpr (Or.inl hset), ?_⟩
      rintro j ⟨-, hlo, hhi⟩
      rw [haddr, Nat.mul_div_cancel _ (by decide)] at hlo hhi
      exact ⟨hrun.2 j hlo hhi, (hbits j).mpr (Or.inr ⟨hlo, hhi⟩)⟩
    · have hzero : pmmAllocFrames p count = (0, p) := by
        rcases Nat.eq_zero_or_pos count with rfl | hpos
        · rw [pmmAllocFrames, findRun_zero]
        · exact (h.allocRun hpos).2 fun hrun ↦ hfree ⟨hpos, hrun⟩
      rw [pmmCall, hzero]
      refine ⟨h.counted, fun j _ hset ↦ hset, ?_⟩
      rintro j ⟨hne, -⟩
      rw [hzero] at hne
      exact absurd rfl hne
  | free addr =>
    obtain ⟨hcounted, -, hbits⟩ := h.counted.free addr
    refine ⟨hcounted, fun i hkeep hset ↦ ?_, fun i hout ↦ absurd hout id⟩
    rw [pmmCall, hbits i (Ne.symm hkeep), hset]
  | freeRun addr count =>
    obtain ⟨hcounted, -, hbits⟩ := h.counted.frees (freedAddrs addr count)
    rw [← pmmFreeFrames_eq] at hcounted hbits
    refine ⟨hcounted, fun i hkeep hset ↦ ?_, fun i hout ↦ absurd hout id⟩
    rw [pmmCall, hbits i fun a ha heq ↦ hkeep ⟨a, ha, heq⟩, hset]

/-- An allowed call keeps the invariant. -/
theorem PmmInv.step (h : PmmInv p) {c : PmmCall} (hallowed : c.Allowed) :
    PmmInv (pmmCall p c) := by
  obtain ⟨hcounted, hkeeps, -⟩ := h.call c
  refine ⟨hcounted, fun i hi ↦ hkeeps i ?_ (h.low i hi)⟩
  cases c with
  | free addr =>
    change addr / frameSize ≠ i
    change 2 ^ 20 ≤ addr at hallowed
    rw [frameSize]
    omega
  | freeRun addr count =>
    rintro ⟨a, ha, rfl⟩
    have hle := hallowed a ha
    rw [frameSize] at hi
    omega
  | _ => exact id

/-! ### From boot on -/

theorem PmmInv.reserve (h : PmmInv p) (addr len : ℕ) : PmmInv (pmmReserve p addr len) :=
  PmmInv.step (c := .reserve addr len) h trivial

theorem PmmInv.reserveMap {mem : Mem} {stop fuel a : ℕ} (h : PmmInv p)
    (hmap : reserveMap mem stop fuel a p = some p') : PmmInv p' := by
  induction fuel generalizing a p with
  | zero => cases hmap
  | succ fuel ih =>
    rw [Mm.reserveMap] at hmap
    simp only at hmap
    split_ifs at hmap with hin hsmall htype
    · obtain rfl := Option.some.inj hmap
      exact h
    · exact ih (h.reserve _ _) hmap
    · exact ih h hmap
    · obtain rfl := Option.some.inj hmap
      exact h

/-- The first reservation of `pmm_init`. -/
theorem pmmInv_low {n : ℕ} (hlo : 256 ≤ n) (hhi : n ≤ 2 ^ 18) :
    PmmInv (pmmReserve ⟨List.replicate (2 ^ 15) 0, n, n⟩ 0 0x100000) := by
  have hclear : ∀ i, bitGet (List.replicate (2 ^ 15) (0 : Byte)) i = false :=
    bitGet_replicate_zero _
  have hcounted : PmmCounted ⟨List.replicate (2 ^ 15) 0, n, n⟩ := by
    refine ⟨?_, hhi, ?_⟩
    · rw [bitLen, List.length_replicate]
      exact hhi
    · change n = clearCount (List.replicate (2 ^ 15) (0 : Byte)) 0 n
      rw [clearCount, List.countP_eq_length.mpr fun i _ ↦ by rw [hclear i]; rfl]
      rw [List.length_range', Nat.sub_zero]
  obtain ⟨hreserved, -, hbits⟩ := hcounted.reserve 0 0x100000
  refine ⟨hreserved, fun i hi ↦ (hbits i).mpr (Or.inr ?_)⟩
  rw [frameSize]
  constructor
  · exact Nat.zero_le i
  · change i < min ((0 + 0x100000 + 4096 - 1) % 2 ^ 64 / 4096) n
    omega

/-- `pmm_init` leaves the allocator in step, with the first mebibyte in use. -/
theorem pmmInit_inv {mem : Mem} {mbInfo kernelStart kernelEnd fuel : ℕ}
    (h : pmmInit mem mbInfo kernelStart kernelEnd fuel = some p) : PmmInv p := by
  unfold pmmInit at h
  simp only at h
  have hstart := (pmmInv_low (n := min (0x100000 + mem.load 4 ((mbInfo + 8) % 2 ^ 32) * 1024)
    0x40000000 / frameSize) (by rw [frameSize]; omega) (by rw [frameSize]; omega)).reserve
    kernelStart ((kernelEnd + 2 ^ 64 - kernelStart) % 2 ^ 64) |>.reserve mbInfo 4096
  split_ifs at h with hmap
  · obtain rfl := Option.some.inj h
    exact hstart
  · exact hstart.reserveMap h

/-- What a call has handed out is not handed out again before it is freed. -/
theorem PmmInv.handsOut_once (h : PmmInv p) {c : PmmCall} (hallowed : c.Allowed)
    (hout : HandsOut p c i)
    (hrun : Run pmmCall (fun _ c ↦ c.Allowed ∧ ¬ c.Frees i) (pmmCall p c) p') (c' : PmmCall) :
    ¬ HandsOut p' c' i := by
  have hkept : PmmInv p' ∧ bitGet p'.bitmap i = true := by
    refine hrun.invariant (fun q ↦ PmmInv q ∧ bitGet q.bitmap i = true)
      ⟨h.step hallowed, ((h.call c).2.2 i hout).2⟩ ?_
    rintro q d ⟨hq, hset⟩ ⟨hd, hkeep⟩
    exact ⟨hq.step hd, (hq.call d).2.1 i hkeep hset⟩
  intro hagain
  have hclear := ((hkept.1.call c').2.2 i hagain).1
  rw [hkept.2] at hclear
  cases hclear

/-- After `pmm_init` and any calls that free nothing below the first mebibyte: the counter is the
number of clear bits; `pmm_alloc_frame` and `pmm_alloc_frames` return the non-zero address of a free
frame or run exactly when there is one, and mark precisely that; and no frame is handed out twice
without a free between. -/
theorem frame_allocator_correct {mem : Mem} {mbInfo kernelStart kernelEnd fuel : ℕ} {p₀ : Pmm}
    (hinit : pmmInit mem mbInfo kernelStart kernelEnd fuel = some p₀)
    (hrun : Run pmmCall (fun _ c ↦ c.Allowed) p₀ p) :
    p.freeFrames = clearCount p.bitmap 0 p.totalFrames ∧
    (((∃ i, FrameFree p i) → ∃ i, FrameFree p i ∧ (pmmAllocFrame p).1 = i * frameSize ∧
        (pmmAllocFrame p).1 ≠ 0 ∧ Takes p (pmmAllocFrame p).2 (fun j ↦ j = i)) ∧
      ((¬ ∃ i, FrameFree p i) → pmmAllocFrame p = (0, p))) ∧
    (∀ count, 1 ≤ count →
      ((∃ base, RunFree p base count) → ∃ base, RunFree p base count ∧
        (pmmAllocFrames p count).1 = base * frameSize ∧ (pmmAllocFrames p count).1 ≠ 0 ∧
        Takes p (pmmAllocFrames p count).2 (fun j ↦ base ≤ j ∧ j < base + count)) ∧
      ((¬ ∃ base, RunFree p base count) → pmmAllocFrames p count = (0, p))) ∧
    ∀ c i p', c.Allowed → HandsOut p c i →
      Run pmmCall (fun _ c ↦ c.Allowed ∧ ¬ c.Frees i) (pmmCall p c) p' →
      ∀ c', ¬ HandsOut p' c' i := by
  have h : PmmInv p := hrun.invariant PmmInv (pmmInit_inv hinit) fun _ _ hq hc ↦ hq.step hc
  refine ⟨h.counted.count, ⟨fun hfree ↦ ?_, h.alloc.2⟩, fun count hcount ↦
    ⟨fun hfree ↦ ?_, (h.allocRun hcount).2⟩, fun c i p' hc hout hcont ↦ h.handsOut_once hc hout hcont⟩
  · obtain ⟨i, hi, haddr, hne, -, htakes⟩ := h.alloc.1 hfree
    exact ⟨i, hi, haddr, hne, htakes⟩
  · obtain ⟨base, hbase, haddr, hne, -, htakes⟩ := (h.allocRun hcount).1 hfree
    exact ⟨base, hbase, haddr, hne, htakes⟩

/-- A machine of two mebibytes without a memory map, after `pmm_alloc_frames(2)`. -/
theorem frame_allocator_correct_two :
    ∃ p₀, pmmInit (Mem.store 4 (fun _ ↦ 0) 0x9008 1024) 0x9000 0x100000 0x180000 0 = some p₀ ∧
      (pmmCall p₀ (.allocRun 2)).freeFrames =
        clearCount (pmmCall p₀ (.allocRun 2)).bitmap 0 (pmmCall p₀ (.allocRun 2)).totalFrames := by
  have hflags : Mem.load 4 (Mem.store 4 (fun _ ↦ 0) 0x9008 1024) 0x9000 = 0 := by
    rw [Mem.load_store_of_disjoint _ _ _ _ _ _ (by omega)]
    exact Mem.load_eq_of_bytes 0 fun k _ ↦ by rw [Nat.zero_div]; rfl
  have hinit : ∃ p₀, pmmInit (Mem.store 4 (fun _ ↦ 0) 0x9008 1024) 0x9000 0x100000 0x180000 0 =
      some p₀ := by
    unfold pmmInit
    simp only [hflags]
    exact ⟨_, rfl⟩
  obtain ⟨p₀, hp₀⟩ := hinit
  have hrun : Run pmmCall (fun _ c ↦ c.Allowed) p₀ (pmmCall p₀ (.allocRun 2)) :=
    Run.refl.snoc (PmmCall.allocRun 2) trivial
  exact ⟨p₀, hp₀, (frame_allocator_correct hp₀ hrun).1⟩

end NoOsKernel.Mm
