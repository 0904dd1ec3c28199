import NoOsKernel.Mm.Heap

/-!
# The heap stores a list of blocks

`HeapRep h bs`: the headers linked from `head` are those of the blocks `bs`, and the two counters
are what `bs` says. For each operation of `kernel/mm/heap.c` this module gives the blocks it leaves,
and shows that it writes to headers only.
-/

set_option autoImplicit false
set_option relaxedAutoImplicit false

namespace NoOsKernel.Heap

open Lib
open Mm (frameSize)

/-- The header of a block, apart from its link, as memory has it. -/
structure Stored (m : Mem) (b : Block) : Prop where
  size : blkSize m b.addr = b.size
  magic : blkMagic m b.addr = hdrMagic
  free : blkFree m b.addr = b.free

/-- The links lead from `p` through the blocks `bs` to `q`. -/
abbrev Chain (m : Mem) (p : ℕ) (bs : List Block) (q : ℕ) : Prop :=
  Seg Block.addr (blkNext m) (Stored m) p bs q

/-- The heap is the list `bs` of blocks. -/
structure HeapRep (h : KHeap) (bs : List Block) : Prop where
  chain : Chain h.mem h.head bs 0
  placed : Placed h.runs bs
  used : h.usedBytes = usedSum bs
  count : h.blockCount = bs.length

/-- Only bytes of the headers of `bs` have changed. -/
def OnlyHdrs (bs : List Block) (m m' : Mem) : Prop :=
  ∀ k, (∀ b ∈ bs, OffHdr b.addr k) → m' k = m k

variable {m m' : Mem} {p q n : ℕ} {a b c x : Block} {bs bs' pre mid mid' post : List Block}
variable {runs : Runs} {h h' : KHeap}

/-! ### Chains -/

/-- The header of a stored block with its link. -/
theorem stored_iff : Stored m b ∧ blkNext m b.addr = q ↔
    hdr m b.addr = ⟨b.size, hdrMagic, b.free, q⟩ := by
  constructor
  · rintro ⟨⟨hsize, hmagic, hfree⟩, hnext⟩
    rw [hdr, hsize, hmagic, hfree, hnext]
  · intro hhdr
    exact ⟨⟨congrArg Hdr.size hhdr, congrArg Hdr.magic hhdr, congrArg Hdr.free hhdr⟩,
      congrArg Hdr.next hhdr⟩

theorem chain_cons : Chain m p (b :: bs) q ↔
    p = b.addr ∧ b.addr ≠ 0 ∧ ∃ r, hdr m b.addr = ⟨b.size, hdrMagic, b.free, r⟩ ∧ Chain m r bs q := by
  constructor
  · rintro ⟨hp, hnull, hstored, hrest⟩
    exact ⟨hp, hnull, _, stored_iff.mp ⟨hstored, rfl⟩, hrest⟩
  · rintro ⟨hp, hnull, r, hhdr, hrest⟩
    obtain ⟨hstored, rfl⟩ := stored_iff.mpr hhdr
    exact ⟨hp, hnull, hstored, hrest⟩

theorem Chain.frame (hchain : Chain m p bs q) (hsame : ∀ b ∈ bs, hdr m' b.addr = hdr m b.addr) :
    Chain m' p bs q := by
  refine Seg.congr hchain fun b hb ↦ ⟨congrArg Hdr.next (hsame b hb), fun hstored ↦ ?_⟩
  have hhdr := stored_iff.mp ⟨hstored, rfl⟩
  rw [← hsame b hb] at hhdr
  exact (stored_iff.mpr hhdr).1

/-- Blocks in the middle of a list are replaced while the other headers stay. -/
theorem Chain.replace (hchain : Chain m p (pre ++ mid ++ post) q)
    (hsame : ∀ b, b ∈ pre ∨ b ∈ post → hdr m' b.addr = hdr m b.addr)
    (hmid : ∀ r r', Chain m r mid r' → Chain m' r mid' r') :
    Chain m' p (pre ++ mid' ++ post) q := by
  obtain ⟨s, hleft, hpost⟩ := seg_append.mp hchain
  obtain ⟨r, hpre, hold⟩ := seg_append.mp hleft
  have hpre' : Chain m' p pre r := Chain.frame hpre fun b hb ↦ hsame b (Or.inl hb)
  have hpost' : Chain m' s post q := Chain.frame hpost fun b hb ↦ hsame b (Or.inr hb)
  exact seg_append.mpr ⟨s, seg_append.mpr ⟨r, hpre', hmid r s hold⟩, hpost'⟩

/-! ### Writes to headers -/

theorem OnlyHdrs.mono (h : OnlyHdrs bs m m') (hsub : bs.map Block.addr ⊆ bs'.map Block.addr) :
    OnlyHdrs bs' m m' := by
  intro k hk
  refine h k fun b hb ↦ ?_
  obtain ⟨c, hc, heq⟩ := List.mem_map.mp (hsub (List.mem_map_of_mem hb))
  rw [← heq]
  exact hk c hc

theorem OnlyHdrs.trans {m'' : Mem} (h : OnlyHdrs bs m m') (h' : OnlyHdrs bs m' m'') :
    OnlyHdrs bs m m'' :=
  fun k hk ↦ (h' k hk).trans (h k hk)

/-- The payload of a block is not touched. -/
theorem OnlyHdrs.payload (h : OnlyHdrs bs m m') (hplaced : Placed runs bs) (hx : x ∈ bs) {k : ℕ}
    (hlo : x.addr + hdrSize ≤ k) (hhi : k < x.stop) : m' k = m k := by
  refine h k fun b hb ↦ ?_
  by_cases heq : b = x
  · rw [heq]
    exact Or.inr hlo
  · have hapart := hplaced.apart_of_ne hb hx heq
    simp only [Block.Apart, Block.stop, OffHdr] at hapart hhi ⊢
    omega

/-- The header of a block that lies apart is not touched. -/
theorem OnlyHdrs.hdr_eq (h : OnlyHdrs bs m m') (hapart : ∀ b ∈ bs, x.Apart b) :
    hdr m' x.addr = hdr m x.addr := by
  refine hdr_congr fun k hlo hhi ↦ h k fun b hb ↦ ?_
  have hxb := hapart b hb
  simp only [Block.Apart, Block.stop, OffHdr] at hxb ⊢
  omega

/-- The header `region_alloc` and the split of `kmalloc` write. -/
theorem hdr_fresh (m : Mem) (a s r : ℕ) :
    hdr (setNext (setFree (setMagic (setSize m a s) a hdrMagic) a true) a r) a =
      ⟨s % 2 ^ 64, hdrMagic, true, r % 2 ^ 64⟩ := by
  rw [hdr_setNext, hdr_setFree, hdr_setMagic, hdr_setSize]
  simp only [hdrMagic, Nat.reduceMod, Nat.reducePow]

theorem fresh_off {a s r k : ℕ} (hk : OffHdr a k) :
    setNext (setFree (setMagic (setSize m a s) a hdrMagic) a true) a r k = m k := by
  rw [setNext_off hk, setFree_off hk, setMagic_off hk, setSize_off hk]

/-! ### Taking a block -/

/-- The two headers of a block that is split. -/
theorem hdr_splitBlock {a s r : ℕ} {free : Bool} (hhdr : hdr m a = ⟨s, hdrMagic, free, r⟩)
    (htop : a + hdrSize + s ≤ 2 ^ 64) (hr : r < 2 ^ 64) (hbig : hdrSize + 16 ≤ s - n) :
    hdr (splitBlock m a n) a = ⟨n, hdrMagic, free, a + hdrSize + n⟩ ∧
      hdr (splitBlock m a n) (a + hdrSize + n) = ⟨s - n - hdrSize, hdrMagic, true, r⟩ ∧
      ∀ k, OffHdr a k → OffHdr (a + hdrSize + n) k → splitBlock m a n k = m k := by
  have hsize : blkSize m a = s := congrArg Hdr.size hhdr
  rw [hdrSize] at hbig htop
  have hnb : (a + hdrSize + n) % 2 ^ 64 = a + hdrSize + n :=
    Nat.mod_eq_of_lt (by rw [hdrSize]; omega)
  -- the link of `b` is read after the other fields of the new header are written
  have hnext : blkNext (setFree (setMagic (setSize m (a + hdrSize + n) (s - n - hdrSize))
      (a + hdrSize + n) hdrMagic) (a + hdrSize + n) true) a = r := by
    refine (congrArg Hdr.next (hdr_of_off (c := a + hdrSize + n) (m := m) (fun k hk ↦ ?_)
      (Or.inl (by omega)))).trans (congrArg Hdr.next hhdr)
    rw [setFree_off hk, setMagic_off hk, setSize_off hk]
  simp only [splitBlock, hsize, hnb, hnext]
  generalize hfresh : setNext (setFree (setMagic (setSize m (a + hdrSize + n) (s - n - hdrSize))
      (a + hdrSize + n) hdrMagic) (a + hdrSize + n) true) (a + hdrSize + n) r = m₁
  have hoff : ∀ k, OffHdr (a + hdrSize + n) k → m₁ k = m k := by
    intro k hk
    rw [← hfresh, fresh_off hk]
  refine ⟨?_, ?_, ?_⟩
  · rw [hdr_setSize, hdr_setNext, hdr_of_off hoff (Or.inl (by omega)), hhdr, hnb,
      Nat.mod_eq_of_lt (by omega)]
  · rw [hdr_of_off (c := a) (m := m₁) (fun k hk ↦ by rw [setSize_off hk, setNext_off hk])
      (Or.inr (by omega)), ← hfresh, hdr_fresh, Nat.mod_eq_of_lt hr, Nat.mod_eq_of_lt (by omega)]
  · intro k hk hk'
    rw [setSize_off hk, setNext_off hk, hoff k hk']

/-- What taking `n` bytes of a block does to its memory and to the counters. -/
theorem takeBlock_spec {r : ℕ} (hhdr : hdr h.mem b.addr = ⟨b.size, hdrMagic, b.free, r⟩)
    (hnull : b.addr ≠ 0) (htop : b.stop ≤ 2 ^ 64) (hr : r < 2 ^ 64) :
    OnlyHdrs (b.take n) h.mem (takeBlock h b.addr n).mem ∧
      Chain (takeBlock h b.addr n).mem b.addr (b.take n) r ∧
      (takeBlock h b.addr n).usedBytes = (h.usedBytes + b.taken n) % 2 ^ 64 ∧
      (h.blockCount + (b.take n).length ≤ 2 ^ 64 →
        (takeBlock h b.addr n).blockCount + 1 = h.blockCount + (b.take n).length) := by
  have hsize : blkSize h.mem b.addr = b.size := congrArg Hdr.size hhdr
  unfold Block.take Block.taken takeBlock
  rw [hsize]
  split_ifs with hbig
  · obtain ⟨hfirst, hsecond, hoff⟩ := hdr_splitBlock hhdr htop hr hbig
    have hmark := hdr_setFree (splitBlock h.mem b.addr n) b.addr false
    rw [hfirst] at hmark
    have hrest : hdr (setFree (splitBlock h.mem b.addr n) b.addr false) (b.addr + hdrSize + n) =
        ⟨b.size - n - hdrSize, hdrMagic, true, r⟩ := by
      rw [hdr_of_off (fun k hk ↦ setFree_off hk false) (Or.inr (by omega)), hsecond]
    refine ⟨fun k hk ↦ ?_, ?_, ?_, fun hcount ↦ ?_⟩
    · have hk₁ := hk ⟨b.addr, n, false⟩ List.mem_cons_self
      have hk₂ := hk _ (List.mem_cons_of_mem _ List.mem_cons_self)
      exact (setFree_off hk₁ false).trans (hoff k hk₁ hk₂)
    · refine chain_cons.mpr ⟨rfl, hnull, _, hmark, ?_⟩
      exact chain_cons.mpr ⟨rfl, by simp only [hdrSize]; omega, _, hrest, rfl⟩
    · have hblk := congrArg Hdr.size hmark
      exact congrArg (fun z ↦ (h.usedBytes + z) % 2 ^ 64) hblk
    · simp only [List.length_cons, List.length_nil] at hcount ⊢
      rw [Nat.mod_eq_of_lt (by omega)]
  · have hmark := hdr_setFree h.mem b.addr false
    rw [hhdr] at hmark
    refine ⟨fun k hk ↦ setFree_off (hk _ List.mem_cons_self) false, ?_, ?_, fun _ ↦ rfl⟩
    · exact chain_cons.mpr ⟨rfl, hnull, r, hmark, rfl⟩
    · have hblk := congrArg Hdr.size hmark
      exact congrArg (fun z ↦ (h.usedBytes + z) % 2 ^ 64) hblk

@[simp] theorem takeBlock_head (h : KHeap) (b n : ℕ) : (takeBlock h b n).head = h.head := by
  unfold takeBlock
  split_ifs <;> rfl

@[simp] theorem takeBlock_runs (h : KHeap) (b n : ℕ) : (takeBlock h b n).runs = h.runs := by
  unfold takeBlock
  split_ifs <;> rfl

theorem blkNext_lt (m : Mem) (a : ℕ) : blkNext m a < 2 ^ 64 := Mem.load_lt 8 m (a + 24)

/-- The other blocks of a list keep their headers. -/
theorem OnlyHdrs.others (h : OnlyHdrs mid' m m') (hplaced : Placed runs (pre ++ mid' ++ post))
    (hx : x ∈ pre ∨ x ∈ post) : hdr m' x.addr = hdr m x.addr := by
  obtain ⟨hleft, -, hcross⟩ := List.pairwise_append.mp hplaced.apart
  obtain ⟨-, -, hcross'⟩ := List.pairwise_append.mp hleft
  refine h.hdr_eq fun b hb ↦ ?_
  rcases hx with hx | hx
  · exact hcross' x hx b hb
  · exact (hcross b (List.mem_append_right _ hb) x hx).symm

/-- Taking a free block splits it. -/
theorem takeBlock_rep (hrep : HeapRep h (pre ++ b :: post)) (hfree : b.free = true)
    (hn : n ≤ b.size) (haligned : n % 16 = 0) :
    HeapRep (takeBlock h b.addr n) (pre ++ b.take n ++ post) ∧
      OnlyHdrs (pre ++ b.take n ++ post) h.mem (takeBlock h b.addr n).mem := by
  obtain ⟨hchain, hplaced, hused, hcount⟩ := hrep
  have hsingle : pre ++ b :: post = pre ++ [b] ++ post := by simp
  obtain ⟨-, hnull, hstored, -⟩ := hchain.split
  have htaken : Placed h.runs (pre ++ b.take n ++ post) :=
    (hsingle ▸ hplaced).take hn haligned
  obtain ⟨honly, hmid, husedBytes, hblockCount⟩ := takeBlock_spec (n := n)
    (stored_iff.mp ⟨hstored, rfl⟩) hnull (hplaced.each b (by simp)).top (blkNext_lt _ _)
  have hlength := htaken.length_lt
  simp only [List.length_append, List.length_cons] at hlength hcount
  constructor
  · constructor
    · rw [hsingle] at hchain
      rw [takeBlock_head]
      refine Chain.replace hchain (fun x hx ↦ honly.others htaken hx) fun r r' hb ↦ ?_
      obtain ⟨rfl, -, -, rfl⟩ := hb
      exact hmid
    · rw [takeBlock_runs]
      exact htaken
    · have hlt := htaken.usedSum_lt
      rw [usedSum_take hfree] at hlt ⊢
      rw [husedBytes, hused, Nat.mod_eq_of_lt hlt]
    · have hsucc := hblockCount (by omega)
      simp only [List.length_append]
      omega
  · refine honly.mono ?_
    simp

/-! ### Growing -/

/-- The frames lie in memory that no run has. -/
structure FreshRun (runs : Runs) (addr frames : ℕ) : Prop where
  pos : 0 < addr
  aligned : addr % frameSize = 0
  top : addr + frames * frameSize ≤ 2 ^ 64
  fresh : ∀ k, addr ≤ k → k < addr + frames * frameSize → ¬ InRuns runs k

/-- The block that frames are made into. -/
def regionBlock (addr frames : ℕ) : Block := ⟨addr, frames * frameSize - hdrSize, true⟩

theorem findTail_eq {t : Block} {fuel : ℕ} (hchain : Chain m p (bs ++ [t]) 0) :
    findTail m fuel p = if bs.length < fuel then some t.addr else none := by
  induction bs generalizing p fuel with
  | nil =>
    obtain ⟨rfl, -, -, hlast⟩ := hchain
    replace hlast : blkNext m t.addr = 0 := hlast
    cases fuel with
    | zero => rfl
    | succ fuel =>
      rw [findTail, if_pos hlast, List.length_nil, if_pos fuel.succ_pos]
  | cons b bs ih =>
    obtain ⟨rfl, -, -, hrest⟩ := hchain
    cases fuel with
    | zero => rfl
    | succ fuel =>
      have hmore : blkNext m b.addr ≠ 0 := fun hnull ↦ by
        simpa using hrest.eq_zero_iff.mp hnull
      rw [findTail, if_neg hmore, ih hrest]
      simp only [List.length_cons, Nat.add_lt_add_iff_right]

/-- A new block behind the others. -/
theorem HeapRep.snoc (hrep : HeapRep h bs) (hb : Placed h'.runs (bs ++ [b]))
    (hfree : b.free = true) (hchain : Chain h'.mem h'.head (bs ++ [b]) 0)
    (hused : h'.usedBytes = h.usedBytes) (hcount : h'.blockCount = (h.blockCount + 1) % 2 ^ 64) :
    HeapRep h' (bs ++ [b]) where
  chain := hchain
  placed := hb
  used := by
    rw [hused, hrep.used]
    simp [hfree]
  count := by
    have hlength := hb.length_lt
    rw [List.length_append, List.length_singleton] at hlength ⊢
    rw [hcount, hrep.count, Nat.mod_eq_of_lt hlength]

/-- Blocks stay placed when there are more runs. -/
theorem Placed.grow {r : ℕ × ℕ} (hplaced : Placed runs bs) : Placed (r :: runs) bs := by
  refine ⟨fun b hb ↦ ?_, hplaced.apart⟩
  obtain ⟨hpos, haddr, hsize, htop, hinside⟩ := hplaced.each b hb
  refine ⟨hpos, haddr, hsize, htop, fun k hlo hhi ↦ ?_⟩
  obtain ⟨r', hr', hin⟩ := hinside k hlo hhi
  exact ⟨r', List.mem_cons_of_mem _ hr', hin⟩

/-- The block made of fresh frames lies apart from all others. -/
theorem Placed.region {addr frames : ℕ} (hplaced : Placed runs bs)
    (hfresh : FreshRun runs addr frames) (hframes : 0 < frames) :
    Placed ((addr, frames) :: runs) (bs ++ [regionBlock addr frames]) := by
  obtain ⟨hpos, haligned, htop, hnot⟩ := hfresh
  have hstop : (regionBlock addr frames).stop = addr + frames * frameSize := by
    simp only [regionBlock, Block.stop, hdrSize, frameSize]
    omega
  refine Placed.snoc hplaced.grow ⟨hpos, ?_, ?_, ?_, fun k hlo hhi ↦ ?_⟩ fun x hx ↦ ?_
  · simp only [regionBlock, frameSize] at haligned ⊢
    omega
  · simp only [regionBlock, hdrSize, frameSize]
    omega
  · rw [hstop]
    exact htop
  · rw [hstop] at hhi
    exact ⟨(addr, frames), List.mem_cons_self, hlo, hhi⟩
  · -- a common byte would lie in an old run
    by_contra hmeet
    rw [Block.Apart, hstop, not_or, not_le, not_le] at hmeet
    have haddr : (regionBlock addr frames).addr = addr := rfl
    have hlow : x.addr < x.stop := by
      simp only [Block.stop, hdrSize]
      omega
    rw [haddr] at hmeet
    have hin := (hplaced.each x hx).inside (max x.addr addr) (le_max_left _ _)
      (max_lt hlow hmeet.1)
    refine hnot _ (le_max_right _ _) (max_lt hmeet.2 ?_) hin
    rw [frameSize]
    omega

/-- The frames `region_alloc` asks for. -/
def regionFrames (payload : ℕ) : ℕ := (hdrSize + payload + frameSize - 1) / frameSize

theorem regionFrames_pos (payload : ℕ) : 0 < regionFrames payload := by
  rw [regionFrames, hdrSize, frameSize]
  omega

theorem le_regionBlock_size (addr payload : ℕ) :
    payload ≤ (regionBlock addr (regionFrames payload)).size := by
  simp only [regionBlock, regionFrames, hdrSize, frameSize]
  omega

theorem regionFrames_eq {payload : ℕ} (hpayload : payload ≤ 2 ^ 33) :
    ((hdrSize + payload) % 2 ^ 64 + frameSize - 1) % 2 ^ 64 / frameSize = regionFrames payload := by
  rw [regionFrames, hdrSize, frameSize]
  omega

/-- The last block is linked to a new one. -/
theorem Chain.link {t : Block} (hchain : Chain m p (bs ++ [t]) 0)
    (hb : hdr m b.addr = ⟨b.size, hdrMagic, b.free, 0⟩) (hok : BlockOk runs b)
    (hplaced : Placed runs (bs ++ [t] ++ [b])) :
    Chain (setNext m t.addr b.addr) p (bs ++ [t] ++ [b]) 0 := by
  have honly : OnlyHdrs [t] m (setNext m t.addr b.addr) := fun k hk ↦
    setNext_off (hk t (List.mem_singleton_self t)) _
  have hsame : ∀ x, x ∈ bs ∨ x ∈ [b] → hdr (setNext m t.addr b.addr) x.addr = hdr m x.addr :=
    fun x hx ↦ honly.others hplaced hx
  obtain ⟨r, hfirst, rfl, htnull, hstored, -⟩ := seg_append.mp hchain
  have htop : b.addr < 2 ^ 64 := by
    have hstop := hok.top
    rw [Block.stop, hdrSize] at hstop
    omega
  have hlink := hdr_setNext m t.addr b.addr
  rw [stored_iff.mp ⟨hstored, rfl⟩, Nat.mod_eq_of_lt htop] at hlink
  rw [← hsame b (Or.inr (List.mem_singleton_self b))] at hb
  rw [List.append_assoc]
  refine seg_append.mpr ⟨t.addr, Chain.frame hfirst fun x hx ↦ hsame x (Or.inl hx), ?_⟩
  refine chain_cons.mpr ⟨rfl, htnull, b.addr, hlink, ?_⟩
  exact chain_cons.mpr ⟨rfl, hok.pos.ne', 0, hb, rfl⟩

/-- The header of the block that fresh frames are made into. -/
def regionMem (m : Mem) (addr frames : ℕ) : Mem :=
  setNext (setFree (setMagic (setSize m addr (frames * frameSize - hdrSize)) addr hdrMagic) addr true)
    addr 0

/-- The heap with one more run, its memory and its first block. -/
def KHeap.grown (h : KHeap) (mem : Mem) (head addr frames : ℕ) : KHeap :=
  { h with
    mem := mem
    head := head
    blockCount := (h.blockCount + 1) % 2 ^ 64
    runs := (addr, frames) :: h.runs }

/-- `region_alloc` when the frame allocator answers with frames. -/
theorem regionAlloc_eq {fuel payload addr : ℕ} {grant : ℕ → ℕ} (hpayload : payload ≤ 2 ^ 33)
    (haddr : grant (regionFrames payload) = addr)
    (hfresh : FreshRun h.runs addr (regionFrames payload)) :
    regionAlloc fuel grant h payload =
      let m := regionMem h.mem addr (regionFrames payload)
      if h.head = 0 then some (addr, h.grown m addr addr (regionFrames payload))
      else
        (findTail m fuel h.head).map fun t ↦
          (addr, h.grown (setNext m t addr) h.head addr (regionFrames payload)) := by
  have hsize : (regionFrames payload * frameSize + 2 ^ 64 - hdrSize) % 2 ^ 64 =
      regionFrames payload * frameSize - hdrSize := by
    have hpos := regionFrames_pos payload
    have htop := hfresh.top
    have haddrpos := hfresh.pos
    rw [hdrSize, frameSize] at *
    omega
  unfold regionAlloc
  simp only [regionFrames_eq hpayload, haddr, if_neg hfresh.pos.ne', hsize]
  split_ifs
  · rfl
  · rw [regionMem]
    split
    · next hnone => rw [hnone, Option.map_none]
    · next t hsome => rw [hsome, Option.map_some, KHeap.grown]

/-- With fresh frames `region_alloc` appends their block. -/
theorem regionAlloc_rep {payload addr : ℕ} {grant : ℕ → ℕ} (fuel : ℕ) (hrep : HeapRep h bs)
    (hpayload : payload ≤ 2 ^ 33) (haddr : grant (regionFrames payload) = addr)
    (hfresh : FreshRun h.runs addr (regionFrames payload)) :
    ∃ h', regionAlloc fuel grant h payload = (if bs.length ≤ fuel then some (addr, h') else none) ∧
      HeapRep h' (bs ++ [regionBlock addr (regionFrames payload)]) ∧
      OnlyHdrs (bs ++ [regionBlock addr (regionFrames payload)]) h.mem h'.mem := by
  have hplaced := hrep.placed.region hfresh (regionFrames_pos payload)
  have hok := hplaced.each _ (List.mem_append_right bs (List.mem_singleton_self _))
  rw [regionAlloc_eq hpayload haddr hfresh]
  simp only
  have hnew : hdr (regionMem h.mem addr (regionFrames payload)) addr =
      ⟨regionFrames payload * frameSize - hdrSize, hdrMagic, true, 0⟩ := by
    have htop := hfresh.top
    have haddrpos := hfresh.pos
    rw [regionMem, hdr_fresh, Nat.mod_eq_of_lt (by omega), Nat.zero_mod]
  have honly : OnlyHdrs [regionBlock addr (regionFrames payload)] h.mem
      (regionMem h.mem addr (regionFrames payload)) := fun k hk ↦
    fresh_off (hk _ (List.mem_singleton_self _))
  have hlast : Placed ((addr, regionFrames payload) :: h.runs)
      (bs ++ [regionBlock addr (regionFrames payload)] ++ []) := by
    rwa [List.append_nil]
  have hfirst : Chain (regionMem h.mem addr (regionFrames payload)) h.head bs 0 :=
    Chain.frame hrep.chain fun x hx ↦ honly.others hlast (Or.inl hx)
  rcases List.eq_nil_or_concat bs with rfl | ⟨first, t, rfl⟩
  · have hhead : h.head = 0 := hrep.chain
    rw [if_pos hhead]
    refine ⟨_, (if_pos (Nat.zero_le fuel)).symm, ?_, honly⟩
    exact hrep.snoc hplaced rfl (chain_cons.mpr ⟨rfl, hok.pos.ne', 0, hnew, rfl⟩) rfl rfl
  · rw [List.concat_eq_append] at hrep hplaced hfirst ⊢
    have hhead : h.head ≠ 0 := fun hzero ↦ by
      simpa using hrep.chain.eq_zero_iff.mp hzero
    rw [if_neg hhead, findTail_eq hfirst, List.length_append, List.length_singleton]
    refine ⟨h.grown (setNext (regionMem h.mem addr (regionFrames payload)) t.addr addr) h.head addr
      (regionFrames payload), ?_, hrep.snoc hplaced rfl (hfirst.link hnew hok hplaced) rfl rfl, ?_⟩
    · by_cases hfuel : first.length < fuel
      · rw [if_pos hfuel, if_pos (Nat.succ_le_of_lt hfuel), Option.map_some]
      · rw [if_neg hfuel, if_neg (by omega), Option.map_none]
    · refine (honly.mono (by simp)).trans fun k hk ↦ setNext_off (hk t (by simp)) _

/-! ### Freeing -/

/-- The code's test of two blocks for adjacency does not overflow. -/
theorem adjacent_iff (hstored : Stored m a) (ha : BlockOk runs a) (hb : BlockOk runs b) :
    adjacent m a.addr b.addr = true ↔ b.addr = a.stop := by
  have hatop := ha.top
  have hbtop := hb.top
  have hpos := hb.pos
  rw [adjacent, decide_eq_true_eq, hstored.size]
  simp only [Block.stop, hdrSize] at hatop hbtop ⊢
  omega

theorem mergeBlocks_rep (hrep : HeapRep h (pre ++ [a, c] ++ post)) (hafree : a.free = true)
    (hcfree : c.free = true) (hadj : c.addr = a.stop) :
    HeapRep (mergeBlocks h a.addr c.addr) (pre ++ [a.absorb c] ++ post) ∧
      OnlyHdrs [a] h.mem (mergeBlocks h a.addr c.addr).mem := by
  obtain ⟨hchain, hplaced, hused, hcount⟩ := hrep
  have habsorbed := hplaced.absorb hadj
  have hctop := (hplaced.each c (by simp)).top
  have honly : OnlyHdrs [a] h.mem (mergeBlocks h a.addr c.addr).mem := by
    intro k hk
    have hoff := hk a (List.mem_singleton_self a)
    exact (setNext_off hoff _).trans (setSize_off hoff _)
  refine ⟨⟨?_, habsorbed, ?_, ?_⟩, honly⟩
  · have honly' : OnlyHdrs [a.absorb c] h.mem (mergeBlocks h a.addr c.addr).mem :=
      honly.mono (List.Subset.refl _)
    refine Chain.replace hchain (fun x hx ↦ honly'.others habsorbed hx) fun r r' hpair ↦ ?_
    obtain ⟨rfl, hanull, s, hahdr, hrest⟩ := chain_cons.mp hpair
    obtain ⟨rfl, hcnull, s', hchdr, rfl⟩ := chain_cons.mp hrest
    have hasize : blkSize h.mem a.addr = a.size := congrArg Hdr.size hahdr
    have hcsize : blkSize h.mem c.addr = c.size := congrArg Hdr.size hchdr
    have hcnext : blkNext (setSize h.mem a.addr (a.size + (hdrSize + c.size))) c.addr = s' := by
      refine (congrArg Hdr.next (hdr_of_off (fun k hk ↦ setSize_off hk _) (Or.inr ?_))).trans
        (congrArg Hdr.next hchdr)
      rw [hadj, Block.stop]
      omega
    refine chain_cons.mpr ⟨rfl, hanull, s', ?_, rfl⟩
    simp only [mergeBlocks, hasize, hcsize, hcnext, Block.absorb]
    have hsize : a.size + (hdrSize + c.size) < 2 ^ 64 := by
      simp only [Block.stop] at hctop hadj
      omega
    have hnext : s' < 2 ^ 64 := by
      rw [← hcnext]
      exact blkNext_lt _ _
    rw [hdr_setNext, hdr_setSize, hahdr, Nat.mod_eq_of_lt hsize, Nat.mod_eq_of_lt hnext]
  · rw [show (mergeBlocks h a.addr c.addr).usedBytes = h.usedBytes from rfl, hused]
    simp [Block.absorb, hafree, hcfree]
  · have hlength := hplaced.length_lt
    simp only [List.length_append, List.length_cons, List.length_nil] at hcount hlength ⊢
    rw [mergeBlocks, hcount]
    simp only
    omega

/-- The scan for the block before `b` ends at the block before `b`. -/
theorem mergePrev_eq {guard : ℕ} (hchain : Chain h.mem p (pre ++ b :: post) 0)
    (hplaced : Placed runs (pre ++ b :: post)) (hguard : pre.length ≤ guard) :
    mergePrev h b.addr guard p =
      match pre.getLast? with
      | none => h
      | some t => if t.free = true ∧ b.addr = t.stop then mergeBlocks h t.addr b.addr else h := by
  have hb : BlockOk runs b := hplaced.each b (by simp)
  induction pre generalizing p guard with
  | nil =>
    obtain ⟨rfl, -⟩ := hchain
    cases guard with
    | zero => rfl
    | succ guard => exact if_pos (Or.inr rfl)
  | cons t pre ih =>
    obtain ⟨rfl, htnull, hstored, hrest⟩ := hchain
    have hplaced' : Placed runs (pre ++ b :: post) :=
      ⟨fun x hx ↦ hplaced.each x (List.mem_cons_of_mem t hx), (List.pairwise_cons.mp hplaced.apart).2⟩
    have hnodup := hplaced.nodup
    have htb : t.addr ≠ b.addr := by
      intro heq
      simp [heq] at hnodup
    cases guard with
    | zero => exact absurd hguard (Nat.not_succ_le_zero _)
    | succ guard =>
      have hadj := adjacent_iff hstored (hplaced.each t List.mem_cons_self) hb
      rw [mergePrev, if_neg (not_or.mpr ⟨htnull, htb⟩),
        ih hrest hplaced' (Nat.le_of_succ_le_succ hguard)]
      simp only [hstored.free, hadj]
      cases pre with
      | nil =>
        have hnext : blkNext h.mem t.addr = b.addr := hrest.1
        simp only [hnext, true_and]
        rfl
      | cons x pre =>
        have hnext : blkNext h.mem t.addr = x.addr := hrest.1
        have hxb : x.addr ≠ b.addr := by
          intro heq
          simp [heq] at hnodup
        rw [hnext, if_neg fun hand ↦ hxb hand.1, List.getLast?_cons_cons]

/-- A block in use is marked free. -/
theorem markFree_rep (hrep : HeapRep h (pre ++ b :: post)) (huse : b.free = false) :
    let m := setFree h.mem b.addr true
    HeapRep { h with mem := m, usedBytes := (h.usedBytes + 2 ^ 64 - blkSize m b.addr) % 2 ^ 64 }
        (pre ++ { b with free := true } :: post) ∧ OnlyHdrs [b] h.mem m := by
  obtain ⟨hchain, hplaced, hused, hcount⟩ := hrep
  have honly : OnlyHdrs [b] h.mem (setFree h.mem b.addr true) := fun k hk ↦
    setFree_off (hk b (List.mem_singleton_self b)) true
  have hsingle : pre ++ b :: post = pre ++ [b] ++ post := by simp
  have hsingle' : pre ++ { b with free := true } :: post = pre ++ [{ b with free := true }] ++ post := by
    simp
  rw [hsingle] at hchain hplaced
  obtain ⟨-, hnull, hstored, -⟩ := (hsingle ▸ hchain).split
  have hmark := hdr_setFree h.mem b.addr true
  rw [stored_iff.mp ⟨hstored, rfl⟩] at hmark
  refine ⟨⟨?_, ?_, ?_, ?_⟩, honly⟩
  · rw [hsingle']
    refine Chain.replace hchain (fun x hx ↦ honly.others hplaced hx) fun r r' hb ↦ ?_
    obtain ⟨rfl, -, -, rfl⟩ := hb
    exact chain_cons.mpr ⟨rfl, hnull, _, hmark, rfl⟩
  · rw [hsingle']
    exact hplaced.setFree true
  · have hsize : blkSize (setFree h.mem b.addr true) b.addr = b.size := congrArg Hdr.size hmark
    have hlt := hplaced.usedSum_lt
    rw [← hsingle] at hlt
    simp only [hsize, hused]
    simp only [usedSum_append, usedSum_cons, huse, if_true, Bool.false_eq_true, if_false] at hlt ⊢
    omega
  · rw [hcount]
    simp

/-- A free block is joined with the next. -/
theorem mergeNext_rep (hrep : HeapRep h (pre ++ b :: post)) (hfree : b.free = true) :
    HeapRep (mergeNext h b.addr) (pre ++ joinNext b post) ∧
      OnlyHdrs [b] h.mem (mergeNext h b.addr).mem := by
  obtain ⟨-, -, hstored, hrest⟩ := hrep.chain.split
  have hb : BlockOk h.runs b := hrep.placed.each b (by simp)
  cases post with
  | nil =>
    have hnext : blkNext h.mem b.addr = 0 := hrest
    rw [mergeNext, hnext]
    simp only [ne_eq, not_true_eq_false, false_and, if_false]
    exact ⟨hrep, fun k _ ↦ rfl⟩
  | cons c post =>
    obtain ⟨hnext, hcnull, hcstored, -⟩ := hrest
    have hadj := adjacent_iff hstored hb (hrep.placed.each c (by simp))
    simp only [mergeNext, hnext, hcstored.free, hadj, ne_eq, hcnull, not_false_eq_true, true_and,
      joinNext]
    split_ifs with hjoin
    · have hpair : HeapRep h (pre ++ [b, c] ++ post) := by simpa using hrep
      have hmerged := mergeBlocks_rep hpair hfree hjoin.1 hjoin.2
      rwa [List.append_assoc] at hmerged
    · exact ⟨hrep, fun k _ ↦ rfl⟩

/-- A free block is joined with the one before. -/
theorem mergePrev_rep (hrep : HeapRep h (pre ++ b :: post)) (hfree : b.free = true)
    (hguard : pre.length ≤ 100000) :
    HeapRep (mergePrev h b.addr 100000 h.head) (joinPrev pre b post) ∧
      OnlyHdrs pre h.mem (mergePrev h b.addr 100000 h.head).mem := by
  rw [mergePrev_eq hrep.chain hrep.placed hguard]
  rcases List.eq_nil_or_concat pre with rfl | ⟨first, t, rfl⟩
  · exact ⟨hrep, fun k _ ↦ rfl⟩
  · rw [List.concat_eq_append] at hrep ⊢
    rw [joinPrev, List.getLast?_concat, List.dropLast_concat]
    simp only
    split_ifs with hjoin
    · have hpair : HeapRep h (first ++ [t, b] ++ post) := by simpa using hrep
      obtain ⟨hmerged, honly⟩ := mergeBlocks_rep hpair hjoin.1 hfree hjoin.2
      rw [List.append_assoc] at hmerged
      exact ⟨hmerged, honly.mono (by simp)⟩
    · exact ⟨hrep, fun k _ ↦ rfl⟩

/-- `kfree` of a block in use releases it. -/
theorem kfree_rep (hrep : HeapRep h (pre ++ b :: post)) (huse : b.free = false)
    (hguard : pre.length ≤ 100000) :
    HeapRep (kfree h (b.addr + hdrSize)) (release pre b post) ∧
      OnlyHdrs (pre ++ b :: post) h.mem (kfree h (b.addr + hdrSize)).mem := by
  obtain ⟨-, hnull, hstored, -⟩ := hrep.chain.split
  have htop := (hrep.placed.each b (by simp)).top
  have hback : (b.addr + hdrSize + 2 ^ 64 - hdrSize) % 2 ^ 64 = b.addr := by
    simp only [Block.stop, hdrSize] at htop ⊢
    omega
  obtain ⟨hmark, honly₁⟩ := markFree_rep hrep huse
  obtain ⟨hnext, honly₂⟩ := mergeNext_rep hmark rfl
  obtain ⟨b', post', heq, haddr, hfree⟩ := joinNext_eq { b with free := true } post
  rw [heq] at hnext
  obtain ⟨hprev, honly₃⟩ := mergePrev_rep hnext hfree hguard
  rw [haddr] at hprev honly₃
  unfold kfree
  rw [release, heq]
  simp only [hback, hstored.magic, hstored.free, huse, ne_eq, not_true_eq_false, if_false,
    Bool.false_eq_true, show b.addr + hdrSize ≠ 0 from fun hzero ↦ hnull (by omega)]
  refine ⟨hprev, ?_⟩
  refine ((honly₁.mono ?_).trans (honly₂.mono ?_)).trans (honly₃.mono ?_)
  all_goals simp

end NoOsKernel.Heap
