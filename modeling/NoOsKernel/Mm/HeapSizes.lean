import NoOsKernel.Mm.Frames
import NoOsKernel.Mm.HeapRuns

/-!
# Sizes near the end of the address space

`kmalloc` over the frame allocator itself, with the number of regions it obtains. Rounding to 16,
adding the header and rounding to whole frames are modulo `2 ^ 64`. A size whose rounded value still
leaves room for the header is honoured or refused. Of the 31 sizes above, the first 16 wrap around
when the header is added: each frame is taken for a region that then does not fit, until none is
left. The last 15 wrap around in `align16`: they are served like a request for nothing.
-/

set_option autoImplicit false
set_option relaxedAutoImplicit false

namespace NoOsKernel.Heap

open Lib Mm

/-- What a call of `kmalloc` leaves: the pointer, heap and frames, and how many calls of
`region_alloc` have succeeded. -/
structure Served where
  ptr : ℕ
  heap : KHeap
  pmm : Pmm
  regions : ℕ

/-- The frames `region_alloc` asks for, as it computes them. -/
def regionNeed (payload : ℕ) : ℕ :=
  ((hdrSize + payload) % 2 ^ 64 + frameSize - 1) % 2 ^ 64 / frameSize

/-- `kmalloc` with the frame allocator; `none` while it has not returned. -/
def kmallocFrames (fuel : ℕ) : ℕ → Pmm → KHeap → ℕ → Option Served
  | 0, _, _, _ => none
  | depth + 1, p, h, n =>
    let size := align16 (if n = 0 then 1 else n)
    match findFit h.mem size fuel h.head with
    | none => none
    | some b =>
      if b ≠ 0 then some ⟨(b + hdrSize) % 2 ^ 64, takeBlock h b size, p, 0⟩
      else
        let answer := pmmAllocFrames p (regionNeed size)
        match regionAlloc fuel (fun _ ↦ answer.1) h size with
        | none => none
        | some (nb, h) =>
          if nb = 0 then some ⟨0, h, answer.2, 0⟩
          else
            (kmallocFrames fuel depth answer.2 h size).map fun r ↦
              { r with regions := r.regions + 1 }

variable {fuel depth n : ℕ} {p p' : Pmm} {h h' : KHeap} {b : Block} {bs pre post : List Block}
  {r : Served}

/-- This is `kmalloc` with the answers of that allocator. -/
theorem kmalloc_of_kmallocFrames (hrun : kmallocFrames fuel depth p h n = some r) :
    ∃ grants, kmalloc fuel grants h n = some (r.ptr, r.heap) := by
  induction depth generalizing p h n r with
  | zero => cases hrun
  | succ depth ih =>
    rw [kmallocFrames] at hrun
    simp only [← request.eq_def] at hrun
    split at hrun
    · cases hrun
    · rename_i b hfind
      by_cases hb : b ≠ 0
      · rw [if_pos hb] at hrun
        obtain rfl := Option.some.inj hrun
        refine ⟨[], ?_⟩
        rw [kmalloc.eq_def]
        simp only [← request.eq_def, hfind, if_pos hb]
      · rw [if_neg hb] at hrun
        split at hrun
        · cases hrun
        · rename_i nb h₁ hregion
          by_cases hnb : nb = 0
          · rw [if_pos hnb] at hrun
            obtain rfl := Option.some.inj hrun
            refine ⟨[fun _ ↦ (pmmAllocFrames p (regionNeed (request n))).1], ?_⟩
            rw [kmalloc.eq_def]
            simp only [← request.eq_def, hfind, if_neg hb, hregion, if_pos hnb]
          · rw [if_neg hnb] at hrun
            obtain ⟨r₁, hrec, rfl⟩ := Option.map_eq_some_iff.mp hrun
            obtain ⟨grants, hgrants⟩ := ih hrec
            refine ⟨(fun _ ↦ (pmmAllocFrames p (regionNeed (request n))).1) :: grants, ?_⟩
            rw [kmalloc.eq_def]
            simp only [← request.eq_def, hfind, if_neg hb, hregion, if_neg hnb, hgrants]

/-! ### The frames of the heap -/

/-- Heap and frame allocator in order: the heap is a list of blocks, the allocator is in step, and
the frames of the heap are in use. -/
structure InOrder (p : Pmm) (h : KHeap) (bs : List Block) : Prop where
  rep : HeapRep h bs
  pmm : PmmInv p
  used : ∀ k, InRuns h.runs k → Marked p (k / frameSize)

/-- Free frames are fresh to the heap. -/
theorem InOrder.fresh (hin : InOrder p h bs) {base frames : ℕ} (hrun : RunFree p base frames)
    (hpos : 0 < frames) : FreshRun h.runs (base * frameSize) frames := by
  obtain ⟨hle, hclear⟩ := hrun
  have hbase := hin.pmm.le_of_clear (hclear base le_rfl (by omega))
  have htotal := hin.pmm.counted.addressable
  have hframe : frameSize = 4096 := rfl
  refine ⟨?_, Nat.mul_mod_left _ _, ?_, fun k hlo hhi hruns ↦ ?_⟩
  · rw [hframe]
    omega
  · rw [hframe]
    omega
  · have hset := (hin.used k hruns).2
    rw [hframe] at hlo hhi hset
    rw [hclear (k / 4096) (by omega) (by omega)] at hset
    cases hset

/-- `region_alloc` depends on the number of frames only. -/
theorem regionAlloc_congr {payload payload' : ℕ} (hneed : regionNeed payload = regionNeed payload')
    (grant : ℕ → ℕ) (h : KHeap) :
    regionAlloc fuel grant h payload = regionAlloc fuel grant h payload' := by
  unfold regionNeed at hneed
  simp only [regionAlloc, hneed]

/-- The frames of a new region belong to the heap. -/
theorem regionAlloc_runs {payload nb : ℕ} {grant : ℕ → ℕ}
    (hregion : regionAlloc fuel grant h payload = some (nb, h')) (hnb : nb ≠ 0) :
    h'.runs = (nb, regionNeed payload) :: h.runs := by
  unfold regionAlloc at hregion
  simp only [← regionNeed.eq_def] at hregion
  by_cases hnone : grant (regionNeed payload) = 0
  · rw [if_pos hnone] at hregion
    exact absurd (Prod.mk.inj (Option.some.inj hregion)).1.symm hnb
  · rw [if_neg hnone] at hregion
    split_ifs at hregion
    · obtain ⟨rfl, rfl⟩ := Prod.mk.inj (Option.some.inj hregion)
      rfl
    · split at hregion
      · cases hregion
      · obtain ⟨rfl, rfl⟩ := Prod.mk.inj (Option.some.inj hregion)
        rfl

/-- `region_alloc` where enough frames in a row are free. -/
theorem InOrder.region (hin : InOrder p h bs) {payload : ℕ} (hpos : 0 < regionNeed payload)
    (hfree : ∃ base, RunFree p base (regionNeed payload)) (hfuel : bs.length ≤ fuel) :
    ∃ h' addr, regionAlloc fuel (fun _ ↦ (pmmAllocFrames p (regionNeed payload)).1) h payload =
        some (addr, h') ∧ addr ≠ 0 ∧ regionNeed payload ≤ 2 ^ 18 ∧
      InOrder (pmmAllocFrames p (regionNeed payload)).2 h'
        (bs ++ [regionBlock addr (regionNeed payload)]) := by
  obtain ⟨base, hrun, haddr, hne, hcounted, htotal, hbits⟩ := (hin.pmm.allocRun hpos).1 hfree
  have hle : regionNeed payload ≤ 2 ^ 18 := by
    have htop := hrun.1
    have htotal := hin.pmm.counted.addressable
    omega
  -- a payload that needs as many frames and does not wrap around
  have hsmall : regionNeed payload = regionFrames ((regionNeed payload - 1) * frameSize) := by
    rw [regionFrames, hdrSize, frameSize]
    omega
  have hbound : (regionNeed payload - 1) * frameSize ≤ 2 ^ 33 := by
    rw [frameSize]
    omega
  have hneed : regionNeed payload = regionNeed ((regionNeed payload - 1) * frameSize) :=
    hsmall.trans (regionFrames_eq hbound).symm
  have hfresh := hin.fresh hrun hpos
  rw [← haddr] at hfresh
  let grant : ℕ → ℕ := fun _ ↦ (pmmAllocFrames p (regionNeed payload)).1
  have hgrant : grant (regionFrames ((regionNeed payload - 1) * frameSize)) =
      (pmmAllocFrames p (regionNeed payload)).1 := rfl
  obtain ⟨h', hregion, hrep, -⟩ :=
    regionAlloc_rep fuel hin.rep hbound hgrant (by rwa [← hsmall])
  rw [if_pos hfuel, ← regionAlloc_congr hneed] at hregion
  rw [← hsmall] at hrep
  refine ⟨h', _, hregion, hne, hle, hrep, ⟨hcounted, fun i hi ↦ ?_⟩, fun k hk ↦ ?_⟩
  · exact (hbits i).mpr (Or.inl (hin.pmm.low i hi))
  · rw [regionAlloc_runs hregion hne] at hk
    obtain ⟨r, hr, hlo, hhi⟩ := hk
    rcases List.mem_cons.mp hr with rfl | hr
    · have htop := hrun.1
      simp only [haddr, frameSize] at hlo hhi ⊢
      exact ⟨by omega, (hbits _).mpr (Or.inr (by omega))⟩
    · obtain ⟨hlt, hset⟩ := hin.used k ⟨r, hr, hlo, hhi⟩
      exact ⟨htotal ▸ hlt, (hbits _).mpr (Or.inl hset)⟩

/-- A block is below the frames of the machine. -/
theorem InOrder.addr_lt (hin : InOrder p h bs) (hb : b ∈ bs) : b.addr < 2 ^ 30 := by
  have hok := hin.rep.placed.each b hb
  have hmarked := hin.used b.addr (hok.inside b.addr le_rfl (by rw [Block.stop, hdrSize]; omega))
  have hlt := hmarked.1
  have htotal := hin.pmm.counted.addressable
  rw [frameSize] at hlt
  omega

/-! ### One round -/

theorem request_mod (n : ℕ) : request n % 16 = 0 := Nat.mul_mod_left _ _

/-- The payload of the block behind a pointer. -/
def payloadSize (h : KHeap) (ptr : ℕ) : ℕ := blkSize h.mem (ptr - hdrSize)

/-- The payload of a block of which `n` bytes have been taken. -/
def Block.payload (b : Block) (n : ℕ) : ℕ := if hdrSize + 16 ≤ b.size - n then n else b.size

/-- A round that finds a block. -/
theorem InOrder.found (hin : InOrder p h (pre ++ b :: post))
    (hskip : ∀ x ∈ pre, ¬ x.Fits (request n)) (hfits : b.Fits (request n)) (fuel depth : ℕ) :
    ∃ r, kmallocFrames fuel (depth + 1) p h n = (if pre.length < fuel then some r else none) ∧
      r.ptr ≠ 0 ∧ r.regions = 0 ∧ payloadSize r.heap r.ptr = b.payload (request n) ∧
      InOrder r.pmm r.heap (pre ++ b.take (request n) ++ post) := by
  have hlt := hin.addr_lt (b := b) (by simp)
  have hptr : (b.addr + hdrSize) % 2 ^ 64 = b.addr + hdrSize :=
    Nat.mod_eq_of_lt (by rw [hdrSize]; omega)
  have hne := (hin.rep.placed.each b (by simp)).pos.ne'
  obtain ⟨htaken, -⟩ := takeBlock_rep hin.rep hfits.1 hfits.2 (request_mod n)
  refine ⟨⟨b.addr + hdrSize, takeBlock h b.addr (request n), p, 0⟩, ?_, ?_, rfl, ?_,
    htaken, hin.pmm, by simpa using hin.used⟩
  · rw [kmallocFrames]
    simp only [← request.eq_def, findFit_eq_found hin.rep.chain hskip hfits]
    split_ifs with hfuel
    · simp only [ne_eq, hne, not_false_eq_true, if_true, hptr]
    · rfl
  · simp only [hdrSize]
    omega
  · obtain ⟨x, hx, haddr, hsize⟩ : ∃ x ∈ b.take (request n), x.addr = b.addr ∧
        x.size = b.payload (request n) := by
      unfold Block.take Block.payload
      split_ifs
      · exact ⟨_, List.mem_cons_self, rfl, rfl⟩
      · exact ⟨_, List.mem_cons_self, rfl, rfl⟩
    have hstored := (htaken.chain.nodes x (by simp [hx])).2.size
    rw [haddr, hsize] at hstored
    rw [payloadSize, Nat.add_sub_cancel]
    exact hstored

/-- A round that finds no block and gets no frames. -/
theorem InOrder.refused (hin : InOrder p h bs) (hskip : ∀ x ∈ bs, ¬ x.Fits (request n))
    (hnone : (pmmAllocFrames p (regionNeed (request n))).1 = 0) (fuel depth : ℕ) :
    kmallocFrames fuel (depth + 1) p h n = if bs.length < fuel then
      some ⟨0, h, (pmmAllocFrames p (regionNeed (request n))).2, 0⟩ else none := by
  have hregion : regionAlloc fuel (fun _ ↦ (0 : ℕ)) h (request n) = some (0, h) := by
    simp only [regionAlloc, if_true]
  rw [kmallocFrames]
  simp only [← request.eq_def, findFit_eq_zero hin.rep.chain hskip]
  split_ifs with hfuel
  · simp only [ne_eq, not_true_eq_false, if_false, hnone, hregion, if_true]
  · rfl

/-- A round that finds no block and gets frames starts again, with the new block. -/
theorem InOrder.again (hin : InOrder p h bs) (hskip : ∀ x ∈ bs, ¬ x.Fits (request n))
    (hpos : 0 < regionNeed (request n)) (hfree : ∃ base, RunFree p base (regionNeed (request n)))
    (fuel depth : ℕ) :
    ∃ p' h' addr, InOrder p' h' (bs ++ [regionBlock addr (regionNeed (request n))]) ∧
      p' = (pmmAllocFrames p (regionNeed (request n))).2 ∧
      kmallocFrames fuel (depth + 1) p h n = if bs.length < fuel then
        (kmallocFrames fuel depth p' h' (request n)).map fun r ↦ { r with regions := r.regions + 1 }
      else none := by
  have hlong : bs.length ≤ bs.length + fuel := Nat.le_add_right _ _
  by_cases hfuel : bs.length < fuel
  · obtain ⟨h', addr, hregion, hne, -, hin'⟩ := hin.region hpos hfree hfuel.le
    refine ⟨_, h', addr, hin', rfl, ?_⟩
    rw [kmallocFrames]
    simp only [← request.eq_def, findFit_eq_zero hin.rep.chain hskip, if_pos hfuel, ne_eq,
      not_true_eq_false, if_false, hregion, if_neg hne]
  · obtain ⟨h', addr, -, -, -, hin'⟩ := hin.region hpos hfree hlong
    refine ⟨_, h', addr, hin', rfl, ?_⟩
    rw [kmallocFrames]
    simp only [← request.eq_def, findFit_eq_zero hin.rep.chain hskip, if_neg hfuel]

/-- Where no run is long enough, or none is asked for, the frame allocator has nothing to give. -/
theorem allocFrames_none (h : PmmInv p) {count : ℕ}
    (hno : ¬ (0 < count ∧ ∃ base, RunFree p base count)) : pmmAllocFrames p count = (0, p) := by
  by_cases hpos : 0 < count
  · exact (h.allocRun hpos).2 fun hrun ↦ hno ⟨hpos, hrun⟩
  · obtain rfl : count = 0 := by omega
    rw [pmmAllocFrames, findRun_zero]

/-- The first free block that is large enough, or none. -/
theorem fits_cases (bs : List Block) (size : ℕ) :
    (∀ x ∈ bs, ¬ x.Fits size) ∨
      ∃ pre b post, bs = pre ++ b :: post ∧ b.Fits size ∧ ∀ x ∈ pre, ¬ x.Fits size := by
  cases hfind : bs.find? fun b ↦ decide (b.Fits size) with
  | some b =>
    obtain ⟨hfits, pre, post, rfl, hskip⟩ := List.find?_eq_some_iff_append.mp hfind
    rw [decide_eq_true_eq] at hfits
    simp only [Bool.not_eq_true', decide_eq_false_iff_not] at hskip
    exact Or.inr ⟨pre, b, post, rfl, hfits, hskip⟩
  | none =>
    rw [List.find?_eq_none] at hfind
    simp only [decide_eq_true_eq] at hfind
    exact Or.inl hfind

/-- The empty heap. -/
theorem inOrder_start (mem : Mem) (hp : PmmInv p) : InOrder p ⟨mem, 0, 0, 0, []⟩ [] where
  rep := ⟨rfl, ⟨fun b hb ↦ absurd hb List.not_mem_nil, .nil⟩, rfl, rfl⟩
  pmm := hp
  used := by
    rintro k ⟨r, hr, -⟩
    exact absurd hr List.not_mem_nil

/-- Every call leaves heap and frame allocator in order. -/
theorem InOrder.kept (hin : InOrder p h bs) (hrun : kmallocFrames fuel depth p h n = some r) :
    ∃ bs', InOrder r.pmm r.heap bs' := by
  induction depth generalizing p h n r bs with
  | zero => cases hrun
  | succ depth ih =>
    rcases fits_cases bs (request n) with hskip | ⟨pre, b, post, rfl, hfits, hskip⟩
    · by_cases hfree : 0 < regionNeed (request n) ∧ ∃ base, RunFree p base (regionNeed (request n))
      · obtain ⟨p', h', addr, hin', -, hcall⟩ := hin.again hskip hfree.1 hfree.2 fuel depth
        rw [hrun] at hcall
        split_ifs at hcall
        obtain ⟨r', hr', rfl⟩ := Option.map_eq_some_iff.mp hcall.symm
        have hrest := ih hin' hr'
        exact hrest
      · have hnone := allocFrames_none hin.pmm hfree
        have hcall := hin.refused hskip (by rw [hnone]) fuel depth
        rw [hrun, hnone] at hcall
        split_ifs at hcall
        obtain rfl := Option.some.inj hcall
        exact ⟨bs, hin⟩
    · obtain ⟨r', hr', -, -, -, hin'⟩ := hin.found hskip hfits fuel depth
      rw [hrun] at hr'
      split_ifs at hr'
      obtain rfl := Option.some.inj hr'
      exact ⟨_, hin'⟩

/-! ### Rounding -/

/-- The size whose request wraps around when the header is added. -/
def wrapSize : ℕ := 2 ^ 64 - 16

theorem request_le (hn : n ≤ wrapSize) :
    n ≤ request n ∧ (request n ≤ n + 15 ∨ request n = 16) ∧ request n ≤ wrapSize ∧
      request (request n) = request n := by
  unfold wrapSize at *
  by_cases hzero : n = 0
  · subst hzero
    decide
  · have hround : request n = (n + 15) / 16 * 16 := by
      rw [request, if_neg hzero, align16, Nat.mod_eq_of_lt (by omega)]
    have hagain : request (request n) = (request n + 15) / 16 * 16 := by
      rw [request, if_neg (by omega), align16, Nat.mod_eq_of_lt (by omega)]
    omega

theorem request_of_lt (hlo : wrapSize < n) (hhi : n < 2 ^ 64) : request n = 0 := by
  unfold wrapSize at hlo
  simp only [request, align16]
  rw [if_neg (by omega)]
  omega

/-- A request that leaves room for the header needs no frames at all or gets a block that is large
enough. -/
theorem regionNeed_fits {size : ℕ} (hsize : size ≤ 2 ^ 64 - 32) :
    regionNeed size = 0 ∨ size + hdrSize ≤ regionNeed size * frameSize := by
  simp only [regionNeed, hdrSize, frameSize]
  omega

theorem regionNeed_wrapSize : regionNeed wrapSize = 1 := by decide

theorem regionNeed_zero : regionNeed 0 = 1 := by decide

/-- A block is too small for the request that wraps around. -/
theorem InOrder.not_fits_wrapSize (hin : InOrder p h bs) (hb : b ∈ bs) : ¬ b.Fits wrapSize := by
  rintro ⟨-, hle⟩
  have hok := hin.rep.placed.each b hb
  have htop := hok.top
  have hpos := hok.pos
  rw [Block.stop, hdrSize] at htop
  unfold wrapSize at hle
  omega

/-! ### Single frames -/

theorem freeFrames_pos_iff (h : PmmCounted p) : 0 < p.freeFrames ↔ ∃ base, RunFree p base 1 := by
  rw [h.count, clearCount, List.countP_pos_iff]
  constructor
  · rintro ⟨i, hi, hclear⟩
    rw [List.mem_range'_1] at hi
    refine ⟨i, by omega, fun j hlo hhi ↦ ?_⟩
    obtain rfl : j = i := by omega
    simpa using hclear
  · rintro ⟨base, hle, hclear⟩
    exact ⟨base, List.mem_range'_1.mpr (by omega), by simp [hclear base le_rfl (by omega)]⟩

/-- Taking one frame leaves one free frame less. -/
theorem freeFrames_allocFrames_one (h : PmmInv p) (hfree : 0 < p.freeFrames) :
    (pmmAllocFrames p 1).2.freeFrames + 1 = p.freeFrames := by
  have hcount := h.counted.count
  have hle := clearCount_le p.bitmap 0 p.totalFrames
  have htotal := h.counted.addressable
  obtain ⟨-, -, -, hne, -⟩ :=
    (h.allocRun le_rfl).1 ((freeFrames_pos_iff h.counted).mp hfree)
  unfold pmmAllocFrames at hne ⊢
  split at hne
  · exact absurd rfl hne
  · change decU64 p.freeFrames + 1 = p.freeFrames
    rw [decU64_eq hfree (by omega)]
    omega

/-- Without a free frame a single frame is refused. -/
theorem allocFrames_one_none (h : PmmInv p) (hfree : p.freeFrames = 0) :
    (pmmAllocFrames p 1).1 = 0 := by
  have hnone : ¬ ∃ base, RunFree p base 1 := by
    rw [← freeFrames_pos_iff h.counted]
    omega
  rw [(h.allocRun le_rfl).2 hnone]

/-! ### Results -/

/-- `kmalloc` returns null or a block with room for `n` bytes, with one new region at most. -/
def Honours (p : Pmm) (h : KHeap) (n : ℕ) : Prop :=
  ∃ fuel depth r, kmallocFrames fuel depth p h n = some r ∧
    (r.ptr = 0 ∨ n ≤ payloadSize r.heap r.ptr) ∧ r.regions ≤ 1

/-- A request that leaves room for the header. -/
theorem InOrder.honours_small (hin : InOrder p h bs) (hn : n ≤ 2 ^ 64 - 32) : Honours p h n := by
  have hwrap : n ≤ wrapSize := hn.trans (by decide)
  obtain ⟨hle, hup, -, hagain⟩ := request_le hwrap
  have hsize : request n ≤ 2 ^ 64 - 32 := by
    have hmod := request_mod n
    omega
  have hpayload : ∀ b : Block, b.Fits (request n) → n ≤ b.payload (request n) := by
    rintro b ⟨-, hfit⟩
    unfold Block.payload
    split_ifs
    · exact hle
    · exact hle.trans hfit
  rcases fits_cases bs (request n) with hskip | ⟨pre, b, post, rfl, hfits, hskip⟩
  · by_cases hfree : 0 < regionNeed (request n) ∧ ∃ base, RunFree p base (regionNeed (request n))
    · obtain ⟨hpos, hrun⟩ := hfree
      obtain ⟨p', h', addr, hin', -, hcall⟩ := hin.again hskip hpos hrun (bs.length + 1) 1
      have hfits : (regionBlock addr (regionNeed (request n))).Fits (request n) := by
        refine ⟨rfl, ?_⟩
        rcases regionNeed_fits hsize with hzero | hroom
        · omega
        · exact Nat.le_sub_of_add_le hroom
      obtain ⟨r, hr, hptr, hregions, hblock, -⟩ := hin'.found (n := request n)
        (by rwa [hagain]) (by rwa [hagain]) (bs.length + 1) 0
      rw [if_pos (Nat.lt_succ_self _)] at hcall hr
      rw [hr, Option.map_some] at hcall
      refine ⟨_, _, _, hcall, Or.inr ?_, ?_⟩
      · rw [hagain] at hblock
        exact (hpayload _ hfits).trans_eq hblock.symm
      · simp only [hregions]
        omega
    · have hnone : (pmmAllocFrames p (regionNeed (request n))).1 = 0 := by
        rw [allocFrames_none hin.pmm hfree]
      have hcall := hin.refused hskip hnone (bs.length + 1) 0
      rw [if_pos (Nat.lt_succ_self _)] at hcall
      exact ⟨_, _, _, hcall, Or.inl rfl, Nat.zero_le _⟩
  · obtain ⟨r, hr, hptr, hregions, hblock, -⟩ := hin.found hskip hfits (pre.length + 1) 0
    rw [if_pos (Nat.lt_succ_self _)] at hr
    exact ⟨_, _, r, hr, Or.inr ((hpayload b hfits).trans_eq hblock.symm), hregions ▸ Nat.zero_le 1⟩

theorem request_wrapSize (hlo : 2 ^ 64 - 32 < n) (hhi : n ≤ wrapSize) : request n = wrapSize := by
  obtain ⟨hle, -, hmax, -⟩ := request_le hhi
  have hmod := request_mod n
  unfold wrapSize at *
  omega

/-- The request that wraps around takes a frame, if there is one, and starts again. -/
theorem InOrder.wraps (hin : InOrder p h bs) (hn : request n = wrapSize) (fuel depth : ℕ) :
    (p.freeFrames = 0 → ∃ h' p', kmallocFrames fuel (depth + 1) p h n =
      if bs.length < fuel then some ⟨0, h', p', 0⟩ else none) ∧
    (0 < p.freeFrames → ∃ p' h' bs', InOrder p' h' bs' ∧ p'.freeFrames + 1 = p.freeFrames ∧
      bs'.length = bs.length + 1 ∧ kmallocFrames fuel (depth + 1) p h n =
        if bs.length < fuel then (kmallocFrames fuel depth p' h' wrapSize).map fun r ↦
          { r with regions := r.regions + 1 }
        else none) := by
  have hneed : regionNeed (request n) = 1 := by rw [hn, regionNeed_wrapSize]
  have hskip : ∀ x ∈ bs, ¬ x.Fits (request n) := fun x hx ↦ hn ▸ hin.not_fits_wrapSize hx
  constructor
  · intro hzero
    exact ⟨h, _, hin.refused hskip (hneed ▸ allocFrames_one_none hin.pmm hzero) fuel depth⟩
  · intro hpos
    have hrun : ∃ base, RunFree p base (regionNeed (request n)) :=
      hneed ▸ (freeFrames_pos_iff hin.pmm.counted).mp hpos
    obtain ⟨p', h', addr, hin', rfl, hcall⟩ := hin.again hskip (by omega) hrun fuel depth
    refine ⟨_, h', _, hin', ?_, by simp, ?_⟩
    · rw [hneed]
      exact freeFrames_allocFrames_one hin.pmm hpos
    · rw [hcall, hn]

/-- The request that wraps around is refused with less than two regions when there are less than
two free frames. -/
theorem InOrder.honours_wraps_iff (hin : InOrder p h bs) (hlo : 2 ^ 64 - 32 < n)
    (hhi : n ≤ wrapSize) : Honours p h n ↔ p.freeFrames < 2 := by
  have hn := request_wrapSize hlo hhi
  have hagain : request wrapSize = wrapSize := by decide
  constructor
  · rintro ⟨fuel, depth, r, hr, -, hregions⟩
    by_contra hmany
    obtain ⟨depth, rfl⟩ : ∃ d, depth = d + 1 := by
      cases depth with
      | zero => cases hr
      | succ depth => exact ⟨depth, rfl⟩
    obtain ⟨p₁, h₁, bs₁, hin₁, hfree₁, -, hcall⟩ := (hin.wraps hn fuel depth).2 (by omega)
    rw [hr] at hcall
    split_ifs at hcall
    obtain ⟨r₁, hr₁, rfl⟩ := Option.map_eq_some_iff.mp hcall.symm
    obtain ⟨depth, rfl⟩ : ∃ d, depth = d + 1 := by
      cases depth with
      | zero => cases hr₁
      | succ depth => exact ⟨depth, rfl⟩
    obtain ⟨p₂, h₂, bs₂, -, -, -, hcall₁⟩ := (hin₁.wraps hagain fuel depth).2 (by omega)
    rw [hr₁] at hcall₁
    split_ifs at hcall₁
    obtain ⟨r₂, -, rfl⟩ := Option.map_eq_some_iff.mp hcall₁.symm
    simp only at hregions
    omega
  · intro hfew
    by_cases hzero : p.freeFrames = 0
    · obtain ⟨h', p', hcall⟩ := (hin.wraps hn (bs.length + 1) 0).1 hzero
      rw [if_pos (Nat.lt_succ_self _)] at hcall
      exact ⟨_, _, _, hcall, Or.inl rfl, Nat.zero_le 1⟩
    · obtain ⟨p₁, h₁, bs₁, hin₁, hfree₁, hlength, hcall⟩ :=
        (hin.wraps hn (bs.length + 2) 1).2 (by omega)
      obtain ⟨h₂, p₂, hcall₁⟩ := (hin₁.wraps hagain (bs.length + 2) 0).1 (by omega)
      rw [if_pos (by omega)] at hcall hcall₁
      rw [hcall₁, Option.map_some] at hcall
      exact ⟨_, _, _, hcall, Or.inl rfl, le_rfl⟩

/-- A request that wraps around in the rounding is served by any free block, or by a new one. -/
theorem InOrder.honours_top_iff (hin : InOrder p h bs) (hlo : wrapSize < n) (hhi : n < 2 ^ 64) :
    Honours p h n ↔ (∀ b ∈ bs, b.free = false) ∧ p.freeFrames = 0 := by
  have hn := request_of_lt hlo hhi
  have hbig : 64 ≤ n := by
    unfold wrapSize at hlo
    omega
  have hsmall : ∀ b : Block, ∀ m ≤ 16, b.payload m < n := by
    intro b m hm
    unfold Block.payload
    rw [hdrSize]
    split_ifs
    · omega
    · omega
  have hfits : ∀ b : Block, b.Fits (request n) ↔ b.free = true := by
    intro b
    rw [hn, Block.Fits]
    exact and_iff_left (Nat.zero_le _)
  have hneed : regionNeed (request n) = 1 := by rw [hn, regionNeed_zero]
  rcases fits_cases bs (request n) with hskip | ⟨pre, b, post, rfl, hfit, hskip⟩
  · have hnofree : ∀ b ∈ bs, b.free = false := by
      intro b hb
      rw [← Bool.not_eq_true, ← hfits b]
      exact hskip b hb
    constructor
    · rintro ⟨fuel, depth, r, hr, hptr, -⟩
      refine ⟨hnofree, ?_⟩
      by_contra hpos
      obtain ⟨depth, rfl⟩ : ∃ d, depth = d + 1 := by
        cases depth with
        | zero => cases hr
        | succ depth => exact ⟨depth, rfl⟩
      have hrun : ∃ base, RunFree p base (regionNeed (request n)) :=
        hneed ▸ (freeFrames_pos_iff hin.pmm.counted).mp (by omega)
      obtain ⟨p₁, h₁, addr, hin₁, -, hcall⟩ := hin.again hskip (by omega) hrun fuel depth
      rw [hr] at hcall
      split_ifs at hcall
      obtain ⟨r₁, hr₁, rfl⟩ := Option.map_eq_some_iff.mp hcall.symm
      obtain ⟨depth, rfl⟩ : ∃ d, depth = d + 1 := by
        cases depth with
        | zero => cases hr₁
        | succ depth => exact ⟨depth, rfl⟩
      have hsixteen : request (request n) = 16 := by
        rw [hn]
        decide
      rw [hneed] at hin₁
      obtain ⟨r₂, hr₂, hne, -, hblock, -⟩ := hin₁.found (n := request n)
        (by
          intro x hx hfit
          exact Bool.false_ne_true ((hnofree x hx).symm.trans hfit.1))
        ⟨rfl, by rw [hsixteen]; simp only [regionBlock, frameSize, hdrSize]; omega⟩ fuel depth
      rw [hr₁] at hr₂
      split_ifs at hr₂
      obtain rfl := Option.some.inj hr₂
      rw [hsixteen] at hblock
      have hless := hsmall (regionBlock addr 1) 16 le_rfl
      rcases hptr with hnull | hroom
      · exact hne hnull
      · simp only [hblock] at hroom
        omega
    · rintro ⟨-, hzero⟩
      have hcall := hin.refused hskip (hneed ▸ allocFrames_one_none hin.pmm hzero) (bs.length + 1) 0
      rw [if_pos (Nat.lt_succ_self _)] at hcall
      exact ⟨_, _, _, hcall, Or.inl rfl, Nat.zero_le 1⟩
  · constructor
    · rintro ⟨fuel, depth, r, hr, hptr, -⟩
      obtain ⟨depth, rfl⟩ : ∃ d, depth = d + 1 := by
        cases depth with
        | zero => cases hr
        | succ depth => exact ⟨depth, rfl⟩
      obtain ⟨r', hr', hne, -, hblock, -⟩ := hin.found hskip hfit fuel depth
      rw [hr] at hr'
      split_ifs at hr'
      obtain rfl := Option.some.inj hr'
      have hless := hsmall b (request n) (by omega)
      rcases hptr with hnull | hroom
      · exact absurd hnull hne
      · omega
    · rintro ⟨hnofree, -⟩
      have hfree := hnofree b (by simp)
      rw [(hfits b).mp hfit] at hfree
      cases hfree

/-- `kmalloc` honours or refuses a size, with one new region at most, exactly if the size leaves room
for the header, or it wraps around there and less than two frames are free, or it wraps around in the
rounding and neither a block nor a frame is free. -/
theorem kmalloc_honours_iff (hin : InOrder p h bs) (hn : n < 2 ^ 64) :
    Honours p h n ↔ n ≤ 2 ^ 64 - 32 ∨ (n ≤ 2 ^ 64 - 16 ∧ p.freeFrames < 2) ∨
      (∀ b ∈ bs, b.free = false) ∧ p.freeFrames = 0 := by
  by_cases hsmall : n ≤ 2 ^ 64 - 32
  · exact ⟨fun _ ↦ Or.inl hsmall, fun _ ↦ hin.honours_small hsmall⟩
  · by_cases hwrap : n ≤ wrapSize
    · rw [hin.honours_wraps_iff (by omega) hwrap]
      constructor
      · exact fun hfew ↦ Or.inr (Or.inl ⟨hwrap, hfew⟩)
      · rintro (hle | ⟨-, hfew⟩ | ⟨-, hzero⟩)
        · exact absurd hle hsmall
        · exact hfew
        · omega
    · rw [hin.honours_top_iff (by omega) hn]
      constructor
      · exact fun hnone ↦ Or.inr (Or.inr hnone)
      · rintro (hle | ⟨hle, -⟩ | hnone)
        · exact absurd hle hsmall
        · exact absurd hle hwrap
        · exact hnone

/-- The frame allocator of a machine with 4 MiB, after the first reservation. -/
def smallPmm : Pmm := pmmReserve ⟨List.replicate (2 ^ 15) 0, 1024, 1024⟩ 0 0x100000

/-- A heap without blocks. -/
def emptyHeap : KHeap := ⟨fun _ ↦ 0, 0, 0, 0, []⟩

theorem inOrder_smallPmm : InOrder smallPmm emptyHeap [] :=
  inOrder_start _ (pmmInv_low (by decide) (by decide))

/-- A megabyte. -/
theorem kmalloc_honours_megabyte : Honours smallPmm emptyHeap (2 ^ 20) :=
  (kmalloc_honours_iff inOrder_smallPmm (by decide)).mpr (Or.inl (by decide))

/-- The largest size. -/
theorem kmalloc_largest_not_honoured :
    InOrder smallPmm emptyHeap [] ∧ ¬ Honours smallPmm emptyHeap (2 ^ 64 - 1) := by
  refine ⟨inOrder_smallPmm, fun hhonours ↦ ?_⟩
  have hzero := ((inOrder_smallPmm.honours_top_iff (by decide) (by decide)).mp hhonours).2
  have hpos : 0 < smallPmm.freeFrames := by decide +kernel
  omega

end NoOsKernel.Heap
