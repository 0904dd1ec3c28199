import Mathlib.Data.List.Chain
import Mathlib.Order.Interval.Finset.Nat
import NoOsKernel.Mm.Pmm

/-!
# Lists of heap blocks

The heap of `kernel/mm/heap.c` as the list of its blocks: where each block stands, how large its
payload is and whether it is free. This is the heap without its memory: an allocation splits a block
(`Block.take`), a free joins it with its neighbours (`release`). `Placed` and `Coalesced` are what all
of it keeps.
-/

set_option autoImplicit false
set_option relaxedAutoImplicit false

namespace NoOsKernel.Heap

open Mm (frameSize)

/-- `sizeof(block)`. -/
def hdrSize : ℕ := 32

/-- A block: the address of its header and the size of its payload. -/
structure Block where
  addr : ℕ
  size : ℕ
  free : Bool

/-- The address behind a block. -/
def Block.stop (b : Block) : ℕ := b.addr + hdrSize + b.size

/-- The blocks have no byte in common. -/
def Block.Apart (a b : Block) : Prop := a.stop ≤ b.addr ∨ b.stop ≤ a.addr

/-- Not both blocks are free, or the second does not begin where the first ends. -/
def Block.Settled (a b : Block) : Prop := ¬ (a.free = true ∧ b.free = true ∧ b.addr = a.stop)

/-- Runs of frames, each with its address and its number of frames. -/
abbrev Runs := List (ℕ × ℕ)

/-- The byte lies in one of the runs. -/
def InRuns (runs : Runs) (k : ℕ) : Prop := ∃ r ∈ runs, r.1 ≤ k ∧ k < r.1 + r.2 * frameSize

/-- A block that is aligned and lies in memory the heap has obtained. -/
structure BlockOk (runs : Runs) (b : Block) : Prop where
  pos : 0 < b.addr
  addr_aligned : b.addr % 16 = 0
  size_aligned : b.size % 16 = 0
  top : b.stop ≤ 2 ^ 64
  inside : ∀ k, b.addr ≤ k → k < b.stop → InRuns runs k

/-- All blocks are, and no two have a byte in common. -/
structure Placed (runs : Runs) (bs : List Block) : Prop where
  each : ∀ b ∈ bs, BlockOk runs b
  apart : bs.Pairwise Block.Apart

/-- No two consecutive blocks are free and adjacent. -/
def Coalesced (bs : List Block) : Prop := bs.IsChain Block.Settled

/-- The payload bytes in use. -/
def usedSum (bs : List Block) : ℕ := (bs.map fun b ↦ if b.free then 0 else b.size).sum

/-! ### Operations -/

/-- A block of which `n` bytes are taken: split when the rest is big enough for a block. -/
def Block.take (b : Block) (n : ℕ) : List Block :=
  if hdrSize + 16 ≤ b.size - n then
    [⟨b.addr, n, false⟩, ⟨b.addr + hdrSize + n, b.size - n - hdrSize, true⟩]
  else [⟨b.addr, b.size, false⟩]

/-- A block with the one behind it. -/
def Block.absorb (a c : Block) : Block := { a with size := a.size + (hdrSize + c.size) }

/-- A free block behind which blocks come, joined with the next. -/
def joinNext (b : Block) : List Block → List Block
  | [] => [b]
  | c :: post => if c.free = true ∧ c.addr = b.stop then b.absorb c :: post else b :: c :: post

/-- A free block between others, joined with the one before it. -/
def joinPrev (pre : List Block) (b : Block) (post : List Block) : List Block :=
  match pre.getLast? with
  | none => b :: post
  | some p =>
    if p.free = true ∧ b.addr = p.stop then pre.dropLast ++ p.absorb b :: post
    else pre ++ b :: post

/-! ### Places -/

variable {runs : Runs} {pre mid mid' post bs : List Block} {a b c : Block} {n : ℕ}

theorem Block.Apart.symm (h : a.Apart b) : b.Apart a := Or.symm h

instance : Std.Symm Block.Apart := ⟨fun _ _ h ↦ h.symm⟩

theorem Placed.apart_of_ne (h : Placed runs bs) (ha : a ∈ bs) (hb : b ∈ bs) (hne : a ≠ b) :
    a.Apart b :=
  h.apart.forall ha hb hne

theorem Placed.split (h : Placed runs (pre ++ mid ++ post)) :
    Placed runs pre ∧ Placed runs mid ∧ Placed runs post := by
  obtain ⟨heach, hapart⟩ := h
  obtain ⟨hleft, hpost, -⟩ := List.pairwise_append.mp hapart
  obtain ⟨hpre, hmid, -⟩ := List.pairwise_append.mp hleft
  refine ⟨⟨fun b hb ↦ heach b ?_, hpre⟩, ⟨fun b hb ↦ heach b ?_, hmid⟩,
    fun b hb ↦ heach b ?_, hpost⟩
  · exact List.mem_append_left _ (List.mem_append_left _ hb)
  · exact List.mem_append_left _ (List.mem_append_right _ hb)
  · exact List.mem_append_right _ hb

/-- Blocks may be replaced by others that lie where they lay. -/
theorem Placed.replace (h : Placed runs (pre ++ mid ++ post)) (hmid : Placed runs mid')
    (hwithin : ∀ x ∈ mid', ∀ y : Block, (∀ b ∈ mid, y.Apart b) → y.Apart x) :
    Placed runs (pre ++ mid' ++ post) := by
  obtain ⟨hpre, -, hpost⟩ := h.split
  obtain ⟨-, -, hcross⟩ := List.pairwise_append.mp h.apart
  obtain ⟨-, -, hcross'⟩ := List.pairwise_append.mp
    (List.pairwise_append.mp h.apart).1
  have hpremid : ∀ x ∈ pre, ∀ y ∈ mid', x.Apart y := fun x hx y hy ↦
    hwithin y hy x fun b hb ↦ hcross' x hx b hb
  have hmidpost : ∀ x ∈ mid', ∀ y ∈ post, x.Apart y := fun x hx y hy ↦
    (hwithin x hx y fun b hb ↦ (hcross b (List.mem_append_right _ hb) y hy).symm).symm
  constructor
  · intro b hb
    rcases List.mem_append.mp hb with hb | hb
    · rcases List.mem_append.mp hb with hb | hb
      · exact hpre.each b hb
      · exact hmid.each b hb
    · exact hpost.each b hb
  · refine List.pairwise_append.mpr
      ⟨List.pairwise_append.mpr ⟨hpre.apart, hmid.apart, hpremid⟩, hpost.apart, ?_⟩
    intro x hx y hy
    rcases List.mem_append.mp hx with hx | hx
    · exact hcross x (List.mem_append_left _ hx) y hy
    · exact hmidpost x hx y hy

/-- A block that lies within another. -/
theorem BlockOk.within (h : BlockOk runs b) (hlo : b.addr ≤ a.addr) (hhi : a.stop ≤ b.stop)
    (haddr : a.addr % 16 = 0) (hsize : a.size % 16 = 0) : BlockOk runs a where
  pos := h.pos.trans_le hlo
  addr_aligned := haddr
  size_aligned := hsize
  top := hhi.trans h.top
  inside := fun k hk hk' ↦ h.inside k (hlo.trans hk) (hk'.trans_le hhi)

theorem Placed.take (h : Placed runs (pre ++ [b] ++ post)) (hn : n ≤ b.size)
    (haligned : n % 16 = 0) : Placed runs (pre ++ b.take n ++ post) := by
  have hb : BlockOk runs b := h.each b (by simp)
  have haddr := hb.addr_aligned
  have hsize := hb.size_aligned
  unfold Block.take
  split_ifs with hbig
  · rw [hdrSize] at hbig
    refine h.replace ⟨?_, ?_⟩ ?_
    · intro x hx
      simp only [List.mem_cons, List.not_mem_nil, or_false] at hx
      rcases hx with rfl | rfl
      · exact hb.within le_rfl (by simp only [Block.stop]; omega) haddr haligned
      · refine hb.within ?_ ?_ ?_ ?_
        · simp only [hdrSize]
          omega
        · simp only [Block.stop, hdrSize]
          omega
        · simp only [hdrSize]
          omega
        · simp only [hdrSize]
          omega
    · refine List.pairwise_pair.mpr (Or.inl ?_)
      simp only [Block.stop, le_refl]
    · intro x hx y hy
      have hout := hy b (List.mem_singleton_self b)
      simp only [List.mem_cons, List.not_mem_nil, or_false] at hx
      simp only [Block.Apart, Block.stop, hdrSize] at hout ⊢
      rcases hx with rfl | rfl
      · simp only
        omega
      · simp only [hdrSize]
        omega
  · refine h.replace ⟨?_, List.pairwise_singleton _ _⟩ ?_
    · intro x hx
      rw [List.mem_singleton.mp hx]
      exact hb.within le_rfl le_rfl haddr hsize
    · intro x hx y hy
      rw [List.mem_singleton.mp hx]
      exact hy b (List.mem_singleton_self b)

theorem stop_absorb (h : c.addr = a.stop) : (a.absorb c).stop = c.stop := by
  simp only [Block.stop, Block.absorb] at h ⊢
  omega

theorem Placed.absorb (h : Placed runs (pre ++ [a, c] ++ post)) (hadj : c.addr = a.stop) :
    Placed runs (pre ++ [a.absorb c] ++ post) := by
  have ha : BlockOk runs a := h.each a (by simp)
  have hc : BlockOk runs c := h.each c (by simp)
  refine h.replace ⟨?_, List.pairwise_singleton _ _⟩ ?_
  · intro x hx
    rw [List.mem_singleton.mp hx]
    refine ⟨ha.pos, ha.addr_aligned, ?_, ?_, fun k hlo hhi ↦ ?_⟩
    · have hasize := ha.size_aligned
      have hcsize := hc.size_aligned
      simp only [Block.absorb, hdrSize]
      omega
    · rw [stop_absorb hadj]
      exact hc.top
    · rw [stop_absorb hadj] at hhi
      by_cases hk : k < a.stop
      · exact ha.inside k hlo hk
      · exact hc.inside k (by omega) hhi
  · intro x hx y hy
    rw [List.mem_singleton.mp hx]
    have houta := hy a (by simp)
    have houtc := hy c (by simp)
    rw [Block.Apart, stop_absorb hadj]
    simp only [Block.Apart, Block.absorb, Block.stop, hdrSize] at houta houtc hadj ⊢
    omega

/-- Whether a block is free does not matter for its place. -/
theorem Placed.setFree (h : Placed runs (pre ++ [b] ++ post)) (free : Bool) :
    Placed runs (pre ++ [{ b with free := free }] ++ post) := by
  have hb : BlockOk runs b := h.each b (by simp)
  refine h.replace ⟨?_, List.pairwise_singleton _ _⟩ ?_
  · intro x hx
    rw [List.mem_singleton.mp hx]
    exact hb.within le_rfl le_rfl hb.addr_aligned hb.size_aligned
  · intro x hx y hy
    rw [List.mem_singleton.mp hx]
    exact hy b (List.mem_singleton_self b)

/-- One more block, in memory of its own. -/
theorem Placed.snoc (h : Placed runs bs) (hb : BlockOk runs b) (hapart : ∀ x ∈ bs, x.Apart b) :
    Placed runs (bs ++ [b]) := by
  constructor
  · intro x hx
    rcases List.mem_append.mp hx with hx | hx
    · exact h.each x hx
    · rw [List.mem_singleton.mp hx]
      exact hb
  · refine List.pairwise_append.mpr ⟨h.apart, List.pairwise_singleton _ _, fun x hx y hy ↦ ?_⟩
    rw [List.mem_singleton.mp hy]
    exact hapart x hx

/-- The blocks of a list have different addresses. -/
theorem Placed.nodup (h : Placed runs bs) : (bs.map Block.addr).Nodup := by
  rw [List.Nodup, List.pairwise_map]
  refine h.apart.imp fun {x y} hxy heq ↦ ?_
  simp only [Block.Apart, Block.stop, hdrSize] at hxy
  omega

/-! ### Coalescing -/

/-- Taking a block needs nothing of the blocks before it. -/
theorem Coalesced.take (hpre : Coalesced pre) (hrest : Coalesced (b :: post)) (hfree : b.free = true)
    (hn : n ≤ b.size) : Coalesced (pre ++ b.take n ++ post) := by
  obtain ⟨hhead, hpost⟩ := List.isChain_cons.mp hrest
  rw [List.append_assoc]
  unfold Block.take
  split_ifs with hbig
  · rw [hdrSize] at hbig
    refine List.IsChain.append hpre ?_ ?_
    · refine List.isChain_cons_cons.mpr ⟨fun h ↦ absurd h.1 Bool.false_ne_true, ?_⟩
      refine List.isChain_cons.mpr ⟨fun c hc ↦ ?_, hpost⟩
      rintro ⟨-, hcfree, hadj⟩
      refine hhead c hc ⟨hfree, hcfree, ?_⟩
      simp only [Block.stop, hdrSize] at hadj ⊢
      omega
    · rintro x - y hy ⟨-, hyfree, -⟩
      obtain rfl := Option.some.inj hy
      cases hyfree
  · refine List.IsChain.append hpre ?_ ?_
    · exact List.isChain_cons.mpr ⟨fun c _ h ↦ absurd h.1 Bool.false_ne_true, hpost⟩
    · rintro x - y hy ⟨-, hyfree, -⟩
      obtain rfl := Option.some.inj hy
      cases hyfree

/-- A block that is joined with the next is settled with what comes behind. -/
theorem coalesced_joinNext (h : Coalesced post) : Coalesced (joinNext b post) := by
  cases post with
  | nil => exact List.isChain_singleton _
  | cons c post =>
    obtain ⟨hhead, hpost⟩ := List.isChain_cons.mp h
    rw [joinNext]
    split_ifs with hjoin
    · refine List.isChain_cons.mpr ⟨fun d hd ↦ ?_, hpost⟩
      rintro ⟨-, hdfree, hadj⟩
      rw [stop_absorb hjoin.2] at hadj
      exact hhead d hd ⟨hjoin.1, hdfree, hadj⟩
    · refine List.isChain_cons_cons.mpr ⟨?_, h⟩
      rintro ⟨-, hcfree, hadj⟩
      exact hjoin ⟨hcfree, hadj⟩

/-- Joining with the block before settles the whole list. -/
theorem coalesced_joinPrev (hpre : Coalesced pre) (hrest : Coalesced (b :: post))
    (hfree : b.free = true) : Coalesced (joinPrev pre b post) := by
  obtain ⟨hhead, hpost⟩ := List.isChain_cons.mp hrest
  rcases List.eq_nil_or_concat pre with rfl | ⟨first, p, rfl⟩
  · exact hrest
  · rw [List.concat_eq_append] at hpre ⊢
    rw [joinPrev, List.getLast?_concat, List.dropLast_concat]
    obtain ⟨hfirst, -, hlast⟩ := List.isChain_append.mp hpre
    simp only
    split_ifs with hjoin
    · refine List.IsChain.append hfirst ?_ ?_
      · refine List.isChain_cons.mpr ⟨fun d hd ↦ ?_, hpost⟩
        rintro ⟨-, hdfree, hadj⟩
        rw [stop_absorb hjoin.2] at hadj
        exact hhead d hd ⟨hfree, hdfree, hadj⟩
      · rintro x hx y hy ⟨hxfree, -, hadj⟩
        obtain rfl := Option.some.inj hy
        exact hlast x hx p rfl ⟨hxfree, hjoin.1, hadj⟩
    · refine List.IsChain.append hpre hrest ?_
      rintro x hx y hy ⟨hxfree, -, hadj⟩
      rw [List.getLast?_concat] at hx
      obtain rfl := Option.some.inj hx
      obtain rfl := Option.some.inj hy
      exact hjoin ⟨hxfree, hadj⟩

/-! ### Releasing -/

theorem Placed.joinNext (h : Placed runs (pre ++ b :: post)) :
    Placed runs (pre ++ joinNext b post) := by
  cases post with
  | nil => exact h
  | cons c post =>
    rw [Heap.joinNext]
    split_ifs with hjoin
    · have hpair : Placed runs (pre ++ [b, c] ++ post) := by simpa using h
      simpa using hpair.absorb hjoin.2
    · exact h

theorem Placed.joinPrev (h : Placed runs (pre ++ b :: post)) :
    Placed runs (joinPrev pre b post) := by
  rcases List.eq_nil_or_concat pre with rfl | ⟨first, p, rfl⟩
  · exact h
  · rw [List.concat_eq_append] at h ⊢
    rw [Heap.joinPrev, List.getLast?_concat, List.dropLast_concat]
    simp only
    split_ifs with hjoin
    · have hpair : Placed runs (first ++ [p, b] ++ post) := by simpa using h
      simpa using hpair.absorb hjoin.2
    · exact h

/-- A block freed between others. -/
def release (pre : List Block) (b : Block) (post : List Block) : List Block :=
  match joinNext { b with free := true } post with
  | [] => pre
  | b :: post => joinPrev pre b post

/-- The block that `joinNext` leaves. -/
theorem joinNext_eq (b : Block) (post : List Block) :
    ∃ b' post', joinNext b post = b' :: post' ∧ b'.addr = b.addr ∧ b'.free = b.free := by
  cases post with
  | nil => exact ⟨b, [], rfl, rfl, rfl⟩
  | cons c post =>
    rw [joinNext]
    split_ifs
    · exact ⟨b.absorb c, post, rfl, rfl, rfl⟩
    · exact ⟨b, c :: post, rfl, rfl, rfl⟩

theorem Placed.release (h : Placed runs (pre ++ b :: post)) : Placed runs (release pre b post) := by
  have hfreed : Placed runs (pre ++ { b with free := true } :: post) := by
    have hsingle : Placed runs (pre ++ [b] ++ post) := by simpa using h
    simpa using hsingle.setFree true
  have hnext := hfreed.joinNext
  obtain ⟨b', post', heq, -, -⟩ := joinNext_eq { b with free := true } post
  rw [heq] at hnext
  rw [Heap.release, heq]
  exact hnext.joinPrev

theorem Coalesced.release (h : Coalesced (pre ++ b :: post)) : Coalesced (release pre b post) := by
  obtain ⟨hpre, hrest, -⟩ := List.isChain_append.mp h
  have hnext := coalesced_joinNext (b := { b with free := true }) (List.isChain_cons.mp hrest).2
  obtain ⟨b', post', heq, -, hfree⟩ := joinNext_eq { b with free := true } post
  rw [heq] at hnext
  rw [Heap.release, heq]
  exact coalesced_joinPrev hpre hnext hfree

/-! ### Blocks in use -/

@[simp] theorem usedSum_nil : usedSum [] = 0 := rfl

@[simp] theorem usedSum_append (as bs : List Block) : usedSum (as ++ bs) = usedSum as + usedSum bs := by
  simp [usedSum]

@[simp] theorem usedSum_cons (b : Block) (bs : List Block) :
    usedSum (b :: bs) = (if b.free then 0 else b.size) + usedSum bs := by
  simp [usedSum]

/-- What a call takes of a block. -/
def Block.taken (b : Block) (n : ℕ) : ℕ := if hdrSize + 16 ≤ b.size - n then n else b.size

theorem usedSum_take (hfree : b.free = true) :
    usedSum (pre ++ b.take n ++ post) = usedSum (pre ++ b :: post) + b.taken n := by
  unfold Block.take Block.taken
  split_ifs
  · simp [hfree]
    omega
  · simp [hfree]
    omega

/-- A block in use stays where it is when another is taken. -/
theorem mem_take {x : Block} (hx : x ∈ pre ++ b :: post) (hne : x.free ≠ b.free) :
    x ∈ pre ++ b.take n ++ post := by
  simp only [List.mem_append, List.mem_cons] at hx ⊢
  rcases hx with hx | rfl | hx
  · exact Or.inl (Or.inl hx)
  · exact absurd rfl hne
  · exact Or.inr hx

/-- The first block that is left stands where the block stood. -/
theorem addr_mem_take (b : Block) (n : ℕ) : b.addr ∈ (b.take n).map Block.addr := by
  unfold Block.take
  split_ifs <;> simp

theorem mem_joinNext {x : Block} (hx : x ∈ post) (huse : x.free = false) : x ∈ joinNext b post := by
  cases post with
  | nil => exact absurd hx List.not_mem_nil
  | cons c post =>
    rw [joinNext]
    split_ifs with hjoin
    · rcases List.mem_cons.mp hx with rfl | hx
      · rw [huse] at hjoin
        exact absurd hjoin.1 Bool.false_ne_true
      · exact List.mem_cons_of_mem _ hx
    · exact List.mem_cons_of_mem _ hx

theorem mem_joinPrev {x : Block} (hx : x ∈ pre ∨ x ∈ post) (huse : x.free = false) :
    x ∈ joinPrev pre b post := by
  rcases List.eq_nil_or_concat pre with rfl | ⟨first, p, rfl⟩
  · exact List.mem_cons_of_mem _ (hx.resolve_left List.not_mem_nil)
  · rw [List.concat_eq_append] at hx ⊢
    rw [joinPrev, List.getLast?_concat, List.dropLast_concat]
    simp only
    split_ifs with hjoin
    · simp only [List.mem_append, List.mem_cons, List.not_mem_nil, or_false] at hx ⊢
      rcases hx with (hx | rfl) | hx
      · exact Or.inl hx
      · rw [huse] at hjoin
        exact absurd hjoin.1 Bool.false_ne_true
      · exact Or.inr (Or.inr hx)
    · simp only [List.mem_append, List.mem_cons] at hx ⊢
      rcases hx with hx | hx
      · exact Or.inl hx
      · exact Or.inr (Or.inr hx)

/-- Another block in use stays where it is when one is freed. -/
theorem mem_release {x : Block} (hx : x ∈ pre ∨ x ∈ post) (huse : x.free = false) :
    x ∈ release pre b post := by
  obtain ⟨b', post', heq, -, hfree⟩ := joinNext_eq { b with free := true } post
  have hnext : x ∈ post → x ∈ b' :: post' := by
    intro hpost
    rw [← heq]
    exact mem_joinNext hpost huse
  rw [release, heq]
  refine mem_joinPrev (hx.imp_right fun hpost ↦ ?_) huse
  rcases List.mem_cons.mp (hnext hpost) with rfl | hin
  · rw [hfree] at huse
    cases huse
  · exact hin

/-- Blocks in a 64-bit memory, their headers included, add up to no more than its size. -/
theorem Placed.total_le (h : Placed runs bs) : usedSum bs + hdrSize * bs.length ≤ 2 ^ 64 := by
  -- the blocks are disjoint intervals below `2 ^ 64`
  have hcard : ∀ bs : List Block, bs.Pairwise Block.Apart → (∀ b ∈ bs, b.stop ≤ 2 ^ 64) →
      ∃ U : Finset ℕ, (∀ k ∈ U, ∃ b ∈ bs, b.addr ≤ k ∧ k < b.stop) ∧
        usedSum bs + hdrSize * bs.length ≤ U.card ∧ U ⊆ Finset.range (2 ^ 64) := by
    intro bs hapart htop
    induction bs with
    | nil => exact ⟨∅, fun k hk ↦ absurd hk (Finset.notMem_empty k), le_rfl, Finset.empty_subset _⟩
    | cons b bs ih =>
      obtain ⟨hhead, hrest⟩ := List.pairwise_cons.mp hapart
      obtain ⟨U, hmem, hle, hsub⟩ := ih hrest fun c hc ↦ htop c (List.mem_cons_of_mem b hc)
      have hdisjoint : Disjoint (Finset.Ico b.addr b.stop) U := by
        rw [Finset.disjoint_left]
        intro k hk hkU
        obtain ⟨c, hc, hlo, hhi⟩ := hmem k hkU
        rw [Finset.mem_Ico] at hk
        have hbc := hhead c hc
        rw [Block.Apart] at hbc
        omega
      refine ⟨Finset.Ico b.addr b.stop ∪ U, fun k hk ↦ ?_, ?_, ?_⟩
      · rcases Finset.mem_union.mp hk with hk | hk
        · exact ⟨b, List.mem_cons_self, Finset.mem_Ico.mp hk⟩
        · obtain ⟨c, hc, hin⟩ := hmem k hk
          exact ⟨c, List.mem_cons_of_mem b hc, hin⟩
      · rw [Finset.card_union_of_disjoint hdisjoint, Nat.card_Ico, usedSum_cons, List.length_cons]
        have hsize : (if b.free then 0 else b.size) ≤ b.size := by
          split_ifs
          · exact Nat.zero_le _
          · exact le_rfl
        simp only [Block.stop, hdrSize] at hle ⊢
        omega
      · refine Finset.union_subset (fun k hk ↦ ?_) hsub
        have hstop := htop b List.mem_cons_self
        rw [Finset.mem_Ico] at hk
        exact Finset.mem_range.mpr (by omega)
  obtain ⟨U, -, hle, hsub⟩ := hcard bs h.apart fun b hb ↦ (h.each b hb).top
  have hbound := Finset.card_le_card hsub
  rw [Finset.card_range] at hbound
  exact hle.trans hbound

theorem Placed.usedSum_lt (h : Placed runs bs) : usedSum bs < 2 ^ 64 := by
  have htotal := h.total_le
  cases bs with
  | nil => exact Nat.two_pow_pos 64
  | cons b bs =>
    rw [List.length_cons, hdrSize] at htotal
    omega

theorem Placed.length_lt (h : Placed runs bs) : bs.length < 2 ^ 64 := by
  have htotal := h.total_le
  rw [hdrSize] at htotal
  omega

end NoOsKernel.Heap
