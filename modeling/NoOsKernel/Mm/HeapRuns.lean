import NoOsKernel.Mm.HeapRep

/-!
# Runs of the kernel heap

Any sequence of `kmalloc` and `kfree`, with the callers writing to their allocations in between and
the frame allocator answering with frames the heap does not have. The heap stays a list of disjoint
blocks in those frames, in which no two adjacent blocks are free, and no call touches a payload that
is in use.

Growing the heap breaks the last of these for a moment: the new block may lie right behind a free
one. It is the block that the same call takes, since no block before it was large enough.
-/

set_option autoImplicit false
set_option relaxedAutoImplicit false

namespace NoOsKernel.Heap

open Lib
open Mm (frameSize)

variable {m : Mem} {p n size fuel : ℕ} {b x : Block} {bs bs' pre post : List Block}
variable {h h' : KHeap} {grant : ℕ → ℕ} {grants : List (ℕ → ℕ)}

/-! ### Finding a block -/

/-- The block is free and large enough. -/
def Block.Fits (b : Block) (size : ℕ) : Prop := b.free = true ∧ size ≤ b.size

instance (b : Block) (size : ℕ) : Decidable (b.Fits size) := inferInstanceAs (Decidable (_ ∧ _))

/-- The test of the loop of `kmalloc`. -/
def fits (m : Mem) (size a : ℕ) : Bool := blkFree m a && decide (size ≤ blkSize m a)

theorem fits_iff (hstored : Stored m b) : fits m size b.addr = true ↔ b.Fits size := by
  rw [fits, Bool.and_eq_true, decide_eq_true_eq, hstored.free, hstored.size, Block.Fits]

theorem findFit_eq_walk (m : Mem) (size fuel p : ℕ) :
    findFit m size fuel p = walk (blkNext m) (fits m size) fuel p := by
  induction fuel generalizing p with
  | zero => rfl
  | succ fuel ih =>
    rw [findFit, walk, ih]
    by_cases hp : p = 0
    · rw [if_pos hp, if_pos hp]
    · rw [if_neg hp, if_neg hp, fits]
      by_cases hfit : blkFree m p = false ∨ blkSize m p < size
      · rw [if_pos hfit, if_neg]
        rw [Bool.and_eq_true, decide_eq_true_eq]
        rcases hfit with hfree | hsize
        · simp [hfree]
        · omega
      · rw [if_neg hfit, if_pos]
        rw [Bool.and_eq_true, decide_eq_true_eq]
        rw [not_or, Bool.not_eq_false, not_lt] at hfit
        exact hfit

theorem findFit_eq_found (hchain : Chain m p (pre ++ b :: post) 0)
    (hskip : ∀ x ∈ pre, ¬ x.Fits size) (hfits : b.Fits size) :
    findFit m size fuel p = if pre.length < fuel then some b.addr else none := by
  rw [findFit_eq_walk]
  have hnodes := hchain.nodes
  refine walk_eq_of_stop hchain (fun x hx ↦ ?_) ?_
  · have hstored := (hnodes x (List.mem_append_left _ hx)).2
    rw [← Bool.not_eq_true, fits_iff hstored]
    exact hskip x hx
  · exact (fits_iff (hnodes b (by simp)).2).mpr hfits

theorem findFit_eq_zero (hchain : Chain m p bs 0) (hskip : ∀ x ∈ bs, ¬ x.Fits size) :
    findFit m size fuel p = if bs.length < fuel then some 0 else none := by
  rw [findFit_eq_walk]
  refine walk_eq_zero hchain fun x hx ↦ ?_
  rw [← Bool.not_eq_true, fits_iff (hchain.nodes x hx).2]
  exact hskip x hx

/-! ### Allocating -/

theorem align16_spec (hn : n ≤ 2 ^ 33) : n ≤ align16 n ∧ align16 n ≤ n + 15 ∧ align16 n % 16 = 0 := by
  rw [align16, Nat.mod_eq_of_lt (by omega)]
  omega

theorem align16_eq_self (hn : n ≤ 2 ^ 33) (haligned : n % 16 = 0) : align16 n = n := by
  have hspec := align16_spec hn
  omega

/-- What an allocation of `n` bytes at `p` does to the blocks `bs`. -/
structure Allocated (bs : List Block) (m : Mem) (n p : ℕ) (h' : KHeap) (bs' : List Block) : Prop where
  rep : HeapRep h' bs'
  coalesced : Coalesced bs'
  only : OnlyHdrs bs' m h'.mem
  others : ∀ x ∈ bs, x.free = false → x ∈ bs' ∧ x.addr + hdrSize ≠ p
  block : ∃ b ∈ bs', b.free = false ∧ b.addr + hdrSize = p ∧ n ≤ b.size

/-- The request after rounding, as `kmalloc` computes it. -/
def request (n : ℕ) : ℕ := align16 (if n = 0 then 1 else n)

theorem request_spec (hn : n ≤ 2 ^ 32) :
    n ≤ request n ∧ request n ≤ 2 ^ 32 + 15 ∧ request n % 16 = 0 ∧ 0 < request n := by
  rw [request]
  split_ifs with hzero
  · have hspec := align16_spec (n := 1) (by omega)
    omega
  · have hspec := align16_spec (n := n) (by omega)
    omega

/-- Taking a block that fits. -/
theorem takeBlock_allocated (hrep : HeapRep h (pre ++ b :: post)) (hpre : Coalesced pre)
    (hrest : Coalesced (b :: post)) (hfits : b.Fits size) (haligned : size % 16 = 0) (hn : n ≤ size) :
    Allocated (pre ++ b :: post) h.mem n (b.addr + hdrSize) (takeBlock h b.addr size)
      (pre ++ b.take size ++ post) := by
  obtain ⟨hfree, hle⟩ := hfits
  obtain ⟨htaken, honly⟩ := takeBlock_rep hrep hfree hle haligned
  refine ⟨htaken, hpre.take hrest hfree hle, honly, fun x hx huse ↦ ⟨?_, ?_⟩, ?_⟩
  · refine mem_take hx ?_
    rw [huse, hfree]
    exact Bool.false_ne_true
  · intro heq
    have hne : x ≠ b := by
      rintro rfl
      rw [huse] at hfree
      cases hfree
    have hapart := hrep.placed.apart_of_ne hx (by simp) hne
    simp only [Block.Apart, Block.stop, hdrSize] at hapart heq
    omega
  · unfold Block.take
    split_ifs
    · exact ⟨⟨b.addr, size, false⟩, by simp, rfl, rfl, hn⟩
    · exact ⟨⟨b.addr, b.size, false⟩, by simp, rfl, rfl, hn.trans hle⟩

/-- The answers of a frame allocator that hands out frames nobody has; null when it has none. -/
def Grants (runs : Runs) (grant : ℕ → ℕ) : Prop :=
  ∀ frames, grant frames ≠ 0 → FreshRun runs (grant frames) frames

/-- A call that finds a block. -/
theorem kmalloc_found (hrep : HeapRep h (pre ++ b :: post)) (hskip : ∀ x ∈ pre, ¬ x.Fits (request n))
    (hfits : b.Fits (request n)) (hpos : 0 < request n) :
    kmalloc fuel grants h n =
      if pre.length < fuel then some (b.addr + hdrSize, takeBlock h b.addr (request n)) else none := by
  have hb := hrep.placed.each b (by simp)
  have hptr : (b.addr + hdrSize) % 2 ^ 64 = b.addr + hdrSize := by
    have htop := hb.top
    have hle := hfits.2
    rw [Block.stop] at htop
    exact Nat.mod_eq_of_lt (by omega)
  rw [kmalloc.eq_def]
  simp only [← request.eq_def, findFit_eq_found hrep.chain hskip hfits]
  split_ifs with hfuel
  · simp only [ne_eq, hb.pos.ne', not_false_eq_true, if_true, hptr]
  · rfl

/-- The request of the inner call is the request of the outer one. -/
theorem request_request (hn : n ≤ 2 ^ 32) : request (request n) = request n := by
  obtain ⟨-, hmax, haligned, hpos⟩ := request_spec hn
  rw [request, if_neg hpos.ne', align16_eq_self (by omega) haligned]

/-- A call that finds no block and gets no frames. -/
theorem kmalloc_failed (hrep : HeapRep h bs) (hskip : ∀ x ∈ bs, ¬ x.Fits (request n))
    (hn : n ≤ 2 ^ 32) (hnone : grant (regionFrames (request n)) = 0) :
    kmalloc fuel (grant :: grants) h n = if bs.length < fuel then some (0, h) else none := by
  have hmax := (request_spec hn).2.1
  have hneed : ((hdrSize + request n) % 2 ^ 64 + frameSize - 1) % 2 ^ 64 / frameSize =
      regionFrames (request n) := regionFrames_eq (by omega)
  rw [kmalloc.eq_def]
  simp only [← request.eq_def, findFit_eq_zero hrep.chain hskip]
  split_ifs with hfuel
  · simp only [ne_eq, not_true_eq_false, if_false, regionAlloc, hneed, hnone, if_true]
  · rfl

/-- A call that finds no block and gets frames takes the block they are made into. -/
theorem kmalloc_grown (hrep : HeapRep h bs) (hcoalesced : Coalesced bs)
    (hskip : ∀ x ∈ bs, ¬ x.Fits (request n)) (hn : n ≤ 2 ^ 32)
    (hfresh : FreshRun h.runs (grant (regionFrames (request n))) (regionFrames (request n))) :
    ∃ p h' bs', kmalloc fuel (grant :: grants) h n =
      (if bs.length < fuel then some (p, h') else none) ∧ p ≠ 0 ∧ Allocated bs h.mem n p h' bs' := by
  obtain ⟨hle, hmax, haligned, hpos⟩ := request_spec hn
  obtain ⟨h₁, hregion, hrep₁, honly₁⟩ :=
    regionAlloc_rep fuel hrep (by omega) rfl hfresh
  generalize hb : regionBlock (grant (regionFrames (request n))) (regionFrames (request n)) = b at *
  have hfits : b.Fits (request n) := by
    rw [← hb]
    exact ⟨rfl, le_regionBlock_size _ _⟩
  have haddr : b.addr = grant (regionFrames (request n)) := by
    rw [← hb]
    rfl
  have hinner : kmalloc fuel grants h₁ (request n) = _ := kmalloc_found (n := request n) hrep₁
    (by rwa [request_request hn]) (by rwa [request_request hn]) (by rwa [request_request hn])
  rw [request_request hn] at hinner
  have halloc := takeBlock_allocated hrep₁ hcoalesced (List.isChain_singleton b) hfits haligned hle
  refine ⟨b.addr + hdrSize, takeBlock h₁ b.addr (request n), bs ++ b.take (request n) ++ [], ?_, ?_, ?_⟩
  · rw [kmalloc.eq_def]
    simp only [← request.eq_def, findFit_eq_zero hrep.chain hskip]
    split_ifs with hfuel
    · simp only [ne_eq, not_true_eq_false, if_false, hregion, if_pos hfuel.le, ← haddr,
        if_neg (hrep₁.placed.each b (by simp)).pos.ne', hinner, if_pos hfuel]
    · rfl
  · rw [hdrSize]
    omega
  · obtain ⟨hrep', hcoal', honly', hothers, hblock⟩ := halloc
    refine ⟨hrep', hcoal', (honly₁.mono ?_).trans honly', fun x hx ↦ ?_, hblock⟩
    · simp only [List.map_append, List.map_cons, List.map_nil, List.append_nil]
      refine List.append_subset.mpr ⟨List.subset_append_left _ _, fun a ha ↦ ?_⟩
      rw [List.mem_singleton.mp ha]
      exact List.mem_append_right _ (addr_mem_take b _)
    · exact hothers x (List.mem_append_left _ hx)

/-- `kmalloc` returns null and has done nothing, or it has allocated a block. -/
theorem kmalloc_spec (fuel : ℕ) (grants : List (ℕ → ℕ)) (hrep : HeapRep h bs)
    (hcoalesced : Coalesced bs) (hn : n ≤ 2 ^ 32) (hgrant : Grants h.runs grant) :
    ∃ p h' need, need ≤ bs.length ∧
      kmalloc fuel (grant :: grants) h n = (if need < fuel then some (p, h') else none) ∧
      ((p = 0 ∧ h' = h) ∨ p ≠ 0 ∧ ∃ bs', Allocated bs h.mem n p h' bs') := by
  obtain ⟨hle, hmax, haligned, hpos⟩ := request_spec hn
  cases hfind : bs.find? fun b ↦ decide (b.Fits (request n)) with
  | some b =>
    obtain ⟨hfits, pre, post, rfl, hskip⟩ := List.find?_eq_some_iff_append.mp hfind
    rw [decide_eq_true_eq] at hfits
    simp only [Bool.not_eq_true', decide_eq_false_iff_not] at hskip
    obtain ⟨hpre, hrest, -⟩ := List.isChain_append.mp hcoalesced
    refine ⟨_, _, pre.length, by simp, kmalloc_found hrep hskip hfits hpos, Or.inr ⟨?_, _,
      takeBlock_allocated hrep hpre hrest hfits haligned hle⟩⟩
    rw [hdrSize]
    omega
  | none =>
    rw [List.find?_eq_none] at hfind
    simp only [decide_eq_true_eq] at hfind
    by_cases hnone : grant (regionFrames (request n)) = 0
    · exact ⟨0, h, bs.length, le_rfl, kmalloc_failed hrep hfind hn hnone, Or.inl ⟨rfl, rfl⟩⟩
    · obtain ⟨p, h', bs', heq, hp, halloc⟩ := kmalloc_grown hrep hcoalesced hfind hn (hgrant _ hnone)
      exact ⟨p, h', bs.length, le_rfl, heq, Or.inr ⟨hp, bs', halloc⟩⟩

/-! ### Runs -/

/-- The allocations that have not been freed, with the number of bytes asked for. -/
abbrev Live := List (ℕ × ℕ)

/-- A call of `kmalloc`, or of `kfree` with a pointer that `kmalloc` has returned. The frame
allocator answers the first request for frames by `grant`. -/
inductive HeapCall (h : KHeap) (live : Live) : KHeap → Live → Prop
  | malloc {n p fuel : ℕ} {grant : ℕ → ℕ} {grants : List (ℕ → ℕ)} {h' : KHeap} (hn : n ≤ 2 ^ 32)
      (hgrant : Grants h.runs grant) (hcall : kmalloc fuel (grant :: grants) h n = some (p, h')) :
      HeapCall h live h' (if p = 0 then live else (p, n) :: live)
  | freeNull : HeapCall h live (kfree h 0) live
  | free {p n : ℕ} (hlive : (p, n) ∈ live) (hblocks : h.blockCount < 100000) :
      HeapCall h live (kfree h p) (live.filter fun e ↦ e.1 ≠ p)

/-- Calls from the empty heap on. In between, anybody may write to live allocations and to memory
that is not the heap's. -/
inductive HeapRun : KHeap → Live → Prop
  | init (m : Mem) : HeapRun ⟨m, 0, 0, 0, []⟩ []
  | call {h h' : KHeap} {live live' : Live} (hrun : HeapRun h live)
      (hcall : HeapCall h live h' live') : HeapRun h' live'
  | write {h : KHeap} {live : Live} {m : Mem} (hrun : HeapRun h live)
      (hwrite : ∀ k, InRuns h.runs k → (∀ e ∈ live, k < e.1 ∨ e.1 + e.2 ≤ k) → m k = h.mem k) :
      HeapRun { h with mem := m } live

/-- The list of blocks has no cycle and no two free neighbours, and every live allocation is a block
of it in use. -/
structure HeapInv (h : KHeap) (live : Live) (bs : List Block) : Prop where
  rep : HeapRep h bs
  acyclic : (bs.map Block.addr).Nodup
  coalesced : Coalesced bs
  allocated : ∀ e ∈ live, e.1 % 16 = 0 ∧
    ∃ b ∈ bs, b.free = false ∧ b.addr + hdrSize = e.1 ∧ e.2 ≤ b.size
  distinct : (live.map Prod.fst).Nodup

/-- The payloads of the live allocations are what they were. -/
def PayloadsKept (h h' : KHeap) (live : Live) : Prop :=
  ∀ e ∈ live, ∀ k, e.1 ≤ k → k < e.1 + blkSize h'.mem (e.1 - hdrSize) → h'.mem k = h.mem k

variable {live live' : Live}

theorem HeapInv.of_rep (hrep : HeapRep h bs) (hcoalesced : Coalesced bs)
    (hlive : ∀ e ∈ live, ∃ b ∈ bs, b.free = false ∧ b.addr + hdrSize = e.1 ∧ e.2 ≤ b.size)
    (hdistinct : (live.map Prod.fst).Nodup) : HeapInv h live bs where
  rep := hrep
  acyclic := hrep.placed.nodup
  coalesced := hcoalesced
  allocated := by
    intro e he
    obtain ⟨b, hb, huse, haddr, hsize⟩ := hlive e he
    have haligned := (hrep.placed.each b hb).addr_aligned
    refine ⟨?_, b, hb, huse, haddr, hsize⟩
    rw [← haddr, hdrSize]
    omega
  distinct := hdistinct

/-- Payloads are kept when only headers of blocks are written, all live allocations being among
these blocks before and after. -/
theorem payloadsKept_of_only (hrep : HeapRep h' bs')
    (hlive : ∀ e ∈ live, ∃ b ∈ bs', b ∈ bs ∧ b.addr + hdrSize = e.1)
    {runs : Runs} (hplaced : Placed runs bs) (honly : OnlyHdrs bs h.mem h'.mem) :
    PayloadsKept h h' live := by
  intro e he k hlo hhi
  obtain ⟨b, hb', hb, haddr⟩ := hlive e he
  have hsize := (hrep.chain.nodes b hb').2.size
  rw [← haddr, Nat.add_sub_cancel, hsize] at hhi
  rw [← haddr] at hlo
  exact honly.payload hplaced hb hlo hhi

theorem kfree_null (h : KHeap) : kfree h 0 = h := if_pos rfl

/-- An allocation keeps the invariant and all payloads, that of the new block included. -/
theorem HeapInv.malloc (hinv : HeapInv h live bs) (halloc : Allocated bs h.mem n p h' bs') :
    HeapInv h' ((p, n) :: live) bs' ∧ PayloadsKept h h' ((p, n) :: live) := by
  obtain ⟨-, -, -, hlive, hdistinct⟩ := hinv
  obtain ⟨hrep, hcoalesced, honly, hothers, hblock⟩ := halloc
  have hlive' : ∀ e ∈ (p, n) :: live,
      ∃ b ∈ bs', b.free = false ∧ b.addr + hdrSize = e.1 ∧ e.2 ≤ b.size := by
    intro e he
    rcases List.mem_cons.mp he with rfl | he
    · exact hblock
    · obtain ⟨-, b, hb, huse, haddr, hsize⟩ := hlive e he
      exact ⟨b, (hothers b hb huse).1, huse, haddr, hsize⟩
  constructor
  · refine HeapInv.of_rep hrep hcoalesced hlive' (List.nodup_cons.mpr ⟨fun hp ↦ ?_, hdistinct⟩)
    obtain ⟨e, he, heq⟩ := List.mem_map.mp hp
    obtain ⟨-, b, hb, huse, haddr, -⟩ := hlive e he
    exact (hothers b hb huse).2 (haddr.trans heq)
  · refine payloadsKept_of_only hrep (fun e he ↦ ?_) hrep.placed honly
    obtain ⟨b, hb, -, haddr, -⟩ := hlive' e he
    exact ⟨b, hb, hb, haddr⟩

/-- Freeing an allocation keeps the invariant and the payloads of the others. -/
theorem HeapInv.free (hinv : HeapInv h live bs) (hmem : (p, n) ∈ live)
    (hblocks : h.blockCount < 100000) :
    (∃ bs', HeapInv (kfree h p) (live.filter fun e ↦ e.1 ≠ p) bs') ∧
      PayloadsKept h (kfree h p) (live.filter fun e ↦ e.1 ≠ p) := by
  obtain ⟨hrep, -, hcoalesced, hlive, hdistinct⟩ := hinv
  obtain ⟨-, b, hb, huse, rfl, -⟩ := hlive _ hmem
  obtain ⟨pre, post, rfl⟩ := List.append_of_mem hb
  have hguard : pre.length ≤ 100000 := by
    have hcount := hrep.count
    rw [List.length_append] at hcount
    omega
  obtain ⟨hfreed, honly⟩ := kfree_rep hrep huse hguard
  have hkept : ∀ e ∈ live.filter fun e ↦ e.1 ≠ b.addr + hdrSize, ∃ x ∈ release pre b post,
      x ∈ pre ++ b :: post ∧ x.free = false ∧ x.addr + hdrSize = e.1 ∧ e.2 ≤ x.size := by
    intro e he
    obtain ⟨he, hne⟩ := List.mem_filter.mp he
    obtain ⟨-, x, hx, hxuse, haddr, hsize⟩ := hlive e he
    have hxb : x ≠ b := by
      rintro rfl
      exact of_decide_eq_true hne haddr.symm
    have hside : x ∈ pre ∨ x ∈ post := by
      rcases List.mem_append.mp hx with hx | hx
      · exact Or.inl hx
      · exact Or.inr ((List.mem_cons.mp hx).resolve_left hxb)
    exact ⟨x, mem_release hside hxuse, hx, hxuse, haddr, hsize⟩
  constructor
  · refine ⟨release pre b post, HeapInv.of_rep hfreed hcoalesced.release (fun e he ↦ ?_) ?_⟩
    · obtain ⟨x, hx, -, hrest⟩ := hkept e he
      exact ⟨x, hx, hrest⟩
    · exact hdistinct.sublist (List.Sublist.map _ List.filter_sublist)
  · refine payloadsKept_of_only hfreed (fun e he ↦ ?_) hrep.placed honly
    obtain ⟨x, hx, hx', -, haddr, -⟩ := hkept e he
    exact ⟨x, hx, hx', haddr⟩

/-- A call keeps the invariant and the payloads. -/
theorem HeapInv.call (hinv : HeapInv h live bs) (hcall : HeapCall h live h' live') :
    (∃ bs', HeapInv h' live' bs') ∧ PayloadsKept h h' live' := by
  cases hcall with
  | freeNull =>
    rw [kfree_null]
    exact ⟨⟨bs, hinv⟩, fun e _ k _ _ ↦ rfl⟩
  | @malloc n p fuel grant grants _ hn hgrant hcall =>
    obtain ⟨p', h₁, need, -, heq, hcases⟩ :=
      kmalloc_spec fuel grants hinv.rep hinv.coalesced hn hgrant
    rw [heq] at hcall
    split_ifs at hcall with hneed
    obtain ⟨rfl, rfl⟩ := Prod.mk.inj (Option.some.inj hcall)
    rcases hcases with ⟨rfl, rfl⟩ | ⟨hp, bs', halloc⟩
    · rw [if_pos rfl]
      exact ⟨⟨bs, hinv⟩, fun e _ k _ _ ↦ rfl⟩
    · rw [if_neg hp]
      obtain ⟨hinv', hkept⟩ := hinv.malloc halloc
      exact ⟨⟨bs', hinv'⟩, hkept⟩
  | free hmem hblocks => exact hinv.free hmem hblocks

/-- Writing to live allocations does not touch a header. -/
theorem HeapInv.write (hinv : HeapInv h live bs)
    (hwrite : ∀ k, InRuns h.runs k → (∀ e ∈ live, k < e.1 ∨ e.1 + e.2 ≤ k) → m k = h.mem k) :
    HeapInv { h with mem := m } live bs := by
  obtain ⟨⟨hchain, hplaced, hused, hcount⟩, hacyclic, hcoalesced, hlive, hdistinct⟩ := hinv
  refine ⟨⟨Chain.frame hchain fun x hx ↦ ?_, hplaced, hused, hcount⟩, hacyclic, hcoalesced, hlive,
    hdistinct⟩
  refine hdr_congr fun k hlo hhi ↦ hwrite k ((hplaced.each x hx).inside k hlo ?_) fun e he ↦ ?_
  · rw [Block.stop]
    omega
  · obtain ⟨-, b, hb, -, haddr, hsize⟩ := hlive e he
    by_cases hxb : x = b
    · rw [← haddr, ← hxb]
      exact Or.inl hhi
    · have hapart := hplaced.apart_of_ne hx hb hxb
      simp only [Block.Apart, Block.stop] at hapart
      omega

theorem HeapRun.inv (hrun : HeapRun h live) : ∃ bs, HeapInv h live bs := by
  induction hrun with
  | init m =>
    refine ⟨[], HeapInv.of_rep ⟨rfl, ⟨nofun, List.Pairwise.nil⟩, rfl, rfl⟩ List.isChain_nil nofun ?_⟩
    exact List.nodup_nil
  | call _ hcall ih =>
    obtain ⟨bs, hinv⟩ := ih
    exact (hinv.call hcall).1
  | write _ hwrite ih =>
    obtain ⟨bs, hinv⟩ := ih
    exact ⟨bs, hinv.write hwrite⟩

/-- After any sequence of calls the heap is a list of blocks as `HeapInv` says; no call changes the
payload of a live allocation; and `kmalloc` returns. -/
theorem heap_representation (hrun : HeapRun h live) :
    (∃ bs, HeapInv h live bs) ∧
      (∀ h' live', HeapCall h live h' live' → PayloadsKept h h' live') ∧
      ∀ n ≤ 2 ^ 32, ∀ grant, Grants h.runs grant → ∀ fuel, h.blockCount < fuel → ∀ grants,
        (kmalloc fuel (grant :: grants) h n).isSome := by
  obtain ⟨bs, hinv⟩ := hrun.inv
  refine ⟨⟨bs, hinv⟩, fun h' live' hcall ↦ (hinv.call hcall).2, ?_⟩
  intro n hn grant hgrant fuel hfuel grants
  obtain ⟨p, h', need, hneed, heq, -⟩ :=
    kmalloc_spec fuel grants hinv.rep hinv.coalesced hn hgrant
  rw [hinv.rep.count] at hfuel
  rw [heq, if_pos (hneed.trans_lt hfuel)]
  rfl

/-- A frame allocator with one frame left. -/
def frameAt (addr frames : ℕ) : ℕ := if frames ≤ 1 then addr else 0

theorem grants_frameAt {runs : Runs} {addr : ℕ} (hfresh : FreshRun runs addr 1) :
    Grants runs (frameAt addr) := by
  obtain ⟨hpos, haligned, htop, hnot⟩ := hfresh
  intro frames hanswer
  rw [frameAt] at hanswer ⊢
  split_ifs at hanswer ⊢ with hone
  · have hle : addr + frames * frameSize ≤ addr + 1 * frameSize :=
      Nat.add_le_add_left (Nat.mul_le_mul_right _ hone) _
    exact ⟨hpos, haligned, hle.trans htop, fun k hlo hhi ↦ hnot k hlo (hhi.trans_le hle)⟩
  · exact absurd rfl hanswer

theorem grants_first {addr : ℕ} (hpos : 0 < addr) (haligned : addr % frameSize = 0)
    (htop : addr + 1 * frameSize ≤ 2 ^ 64) : Grants [] (frameAt addr) := by
  refine grants_frameAt ⟨hpos, haligned, htop, fun k _ _ ↦ ?_⟩
  rintro ⟨r, hr, -⟩
  exact absurd hr List.not_mem_nil

/-- A heap with one live allocation. -/
theorem heap_representation_one :
    ∃ h, HeapRun h [(4128, 100)] ∧ ∃ bs, HeapInv h [(4128, 100)] bs := by
  have hptr : (kmalloc 1 [frameAt 4096] ⟨fun _ ↦ 0, 0, 0, 0, []⟩ 100).map Prod.fst =
      some 4128 := by
    decide +kernel
  obtain ⟨⟨p, h⟩, hcall, hp⟩ := Option.map_eq_some_iff.mp hptr
  obtain rfl : p = 4128 := hp
  have hgrant : Grants [] (frameAt 4096) := grants_first (by omega) rfl (by rw [frameSize]; omega)
  have hrun : HeapRun h [(4128, 100)] :=
    (HeapRun.init fun _ ↦ 0).call (HeapCall.malloc (by omega) hgrant hcall)
  exact ⟨h, hrun, (heap_representation hrun).1⟩

/-- Two allocations that fill a frame each, the second frame right before the first. -/
def downwards : Option KHeap := do
  let (_, h) ← kmalloc 1 [frameAt 8192] ⟨fun _ ↦ 0, 0, 0, 0, []⟩ 4064
  let (_, h) ← kmalloc 2 [frameAt 4096] h 4064
  return h

theorem downwards_run : ∃ h, downwards = some h ∧ HeapRun h [(4128, 4064), (8224, 4064)] := by
  have hfirst : (kmalloc 1 [frameAt 8192] ⟨fun _ ↦ 0, 0, 0, 0, []⟩ 4064).map
      (fun r ↦ (r.1, r.2.runs)) = some (8224, [(8192, 1)]) := by
    decide +kernel
  obtain ⟨⟨p, h₁⟩, hcall₁, hp⟩ := Option.map_eq_some_iff.mp hfirst
  obtain ⟨rfl, hruns⟩ := Prod.mk.inj hp
  have hsecond : ((kmalloc 1 [frameAt 8192] ⟨fun _ ↦ 0, 0, 0, 0, []⟩ 4064).bind
      fun r ↦ (kmalloc 2 [frameAt 4096] r.2 4064).map Prod.fst) = some 4128 := by
    decide +kernel
  rw [hcall₁, Option.bind_some] at hsecond
  obtain ⟨⟨q, h₂⟩, hcall₂, hq⟩ := Option.map_eq_some_iff.mp hsecond
  obtain rfl : q = 4128 := hq
  have hgrant₁ : Grants [] (frameAt 8192) := grants_first (by omega) rfl (by rw [frameSize]; omega)
  have hgrant₂ : Grants h₁.runs (frameAt 4096) := by
    refine grants_frameAt ⟨by omega, rfl, by rw [frameSize]; omega, fun k hlo hhi ↦ ?_⟩
    rintro ⟨r, hr, hin⟩
    simp only at hruns
    rw [hruns, List.mem_singleton] at hr
    rw [hr, frameSize] at hin
    rw [frameSize] at hhi
    omega
  refine ⟨h₂, ?_, ?_⟩
  · rw [downwards, hcall₁]
    simp [hcall₂]
  · exact ((HeapRun.init fun _ ↦ 0).call (HeapCall.malloc (by omega) hgrant₁ hcall₁)).call
      (HeapCall.malloc (by omega) hgrant₂ hcall₂)

/-- Freed again, the two blocks touch and are both free: the block behind in memory comes first in
the list, and `adjacent` looks for blocks in the order of the list only. -/
theorem downwards_not_coalesced :
    ∃ h a b, HeapRun h [] ∧ HeapInv h [] [a, b] ∧ a.free = true ∧ b.free = true ∧ a.addr = b.stop := by
  obtain ⟨h, heq, hrun⟩ := downwards_run
  have hcounts : downwards.map (fun h ↦ (h.blockCount, (kfree h 8224).blockCount)) = some (2, 2) := by
    decide +kernel
  rw [heq, Option.map_some] at hcounts
  obtain ⟨hcount, hcount'⟩ := Prod.mk.inj (Option.some.inj hcounts)
  have hfreed : HeapRun (kfree (kfree h 8224) 4128) [] :=
    (hrun.call (HeapCall.free (n := 4064) (by simp) (by omega))).call
      (HeapCall.free (n := 4064) (by simp) (by omega))
  have hfinal : downwards.map (fun h ↦
      let h := kfree (kfree h 8224) 4128
      (h.blockCount, h.head, blkFree h.mem 8192, blkNext h.mem 8192, blkFree h.mem 4096,
        blkSize h.mem 4096)) = some (2, 8192, true, 4096, true, 4064) := by
    decide +kernel
  rw [heq, Option.map_some] at hfinal
  simp only [Option.some.injEq, Prod.mk.injEq] at hfinal
  obtain ⟨hcount₂, hhead, hfree₁, hnext, hfree₂, hsize⟩ := hfinal
  obtain ⟨bs, hinv⟩ := hfreed.inv
  obtain ⟨a, b, rfl⟩ := List.length_eq_two.mp (hinv.rep.count.symm.trans hcount₂)
  obtain ⟨ha, -, hastored, hb, -, hbstored, -⟩ := hinv.rep.chain
  rw [hhead] at ha
  rw [← ha, hnext] at hb
  refine ⟨_, a, b, hfreed, hinv, ?_, ?_, ?_⟩
  · rw [← hastored.free, ← ha, hfree₁]
  · rw [← hbstored.free, ← hb, hfree₂]
  · rw [← ha, Block.stop, ← hbstored.size, ← hb, hsize]
    rfl

end NoOsKernel.Heap
