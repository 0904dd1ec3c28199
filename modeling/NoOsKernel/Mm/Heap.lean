import NoOsKernel.Lib.LinkedList
import NoOsKernel.Lib.Memory
import NoOsKernel.Mm.Blocks

/-!
# The kernel heap

`kernel/mm/heap.c`: blocks of memory with a header in front of each, in one list linked through the
headers. `kmalloc` takes the first free block that is large enough and splits it; when there is none
it takes frames from the frame allocator, appends them to the list as one free block and starts
again. `kfree` joins a block with the free blocks before and behind it. `heap_validate` and the
messages have no effect on the heap and no counterpart here.

The memory is that of the machine, byte by byte; `runs` records the frames the heap has obtained.
-/

set_option autoImplicit false
set_option relaxedAutoImplicit false

namespace NoOsKernel.Heap

open Lib
open Mm (frameSize)

/-- `HDR_MAGIC`. -/
def hdrMagic : ℕ := 0x4E4F4F534C4C4F43

/-! ### Headers -/

/-- `b->size`. -/
def blkSize (m : Mem) (b : ℕ) : ℕ := m.load 8 b

/-- `b->magic`. -/
def blkMagic (m : Mem) (b : ℕ) : ℕ := m.load 8 (b + 8)

/-- `b->free`. -/
def blkFree (m : Mem) (b : ℕ) : Bool := decide (m.load 1 (b + 16) ≠ 0)

/-- `b->next`. -/
def blkNext (m : Mem) (b : ℕ) : ℕ := m.load 8 (b + 24)

/-- `b->size = v`. -/
def setSize (m : Mem) (b v : ℕ) : Mem := m.store 8 b v

/-- `b->magic = v`. -/
def setMagic (m : Mem) (b v : ℕ) : Mem := m.store 8 (b + 8) v

/-- `b->free = v`. -/
def setFree (m : Mem) (b : ℕ) (v : Bool) : Mem := m.store 1 (b + 16) (if v then 1 else 0)

/-- `b->next = v`. -/
def setNext (m : Mem) (b v : ℕ) : Mem := m.store 8 (b + 24) v

/-- `adjacent`. -/
def adjacent (m : Mem) (a b : ℕ) : Bool := decide (b = (a + hdrSize + blkSize m a) % 2 ^ 64)

/-- The memory and the variables of `heap.c`. -/
structure KHeap where
  mem : Mem
  head : ℕ
  usedBytes : ℕ
  blockCount : ℕ
  runs : Runs

/-! ### Allocation -/

/-- `align16`. -/
def align16 (n : ℕ) : ℕ := (n + 15) % 2 ^ 64 / 16 * 16

/-- The loop of `kmalloc` up to the block it takes; null when there is none. -/
def findFit (m : Mem) (size : ℕ) : ℕ → ℕ → Option ℕ
  | 0, _ => none
  | fuel + 1, b =>
    if b = 0 then some 0
    else if blkFree m b = false ∨ blkSize m b < size then findFit m size fuel (blkNext m b)
    else some b

/-- The split of `kmalloc`: a new block behind the first `size` bytes of `b`. -/
def splitBlock (m : Mem) (b size : ℕ) : Mem :=
  let nb := (b + hdrSize + size) % 2 ^ 64
  let m := setSize m nb (blkSize m b - size - hdrSize)
  let m := setMagic m nb hdrMagic
  let m := setFree m nb true
  let m := setNext m nb (blkNext m b)
  let m := setNext m b nb
  setSize m b size

/-- The body of the loop of `kmalloc`: the block is split when the rest is big enough. -/
def takeBlock (h : KHeap) (b size : ℕ) : KHeap :=
  let h :=
    if hdrSize + 16 ≤ blkSize h.mem b - size then
      { h with mem := splitBlock h.mem b size, blockCount := (h.blockCount + 1) % 2 ^ 64 }
    else h
  let m := setFree h.mem b false
  { h with mem := m, usedBytes := (h.usedBytes + blkSize m b) % 2 ^ 64 }

/-- The loop of `region_alloc` to the last block. -/
def findTail (m : Mem) : ℕ → ℕ → Option ℕ
  | 0, _ => none
  | fuel + 1, t => if blkNext m t = 0 then some t else findTail m fuel (blkNext m t)

/-- `region_alloc`, with what `pmm_alloc_frames` answers to a number of frames. The result is null
when there are no frames. -/
def regionAlloc (fuel : ℕ) (grant : ℕ → ℕ) (h : KHeap) (payload : ℕ) : Option (ℕ × KHeap) :=
  let need := (hdrSize + payload) % 2 ^ 64
  let frames := (need + frameSize - 1) % 2 ^ 64 / frameSize
  let addr := grant frames
  if addr = 0 then some (0, h)
  else
    let m := setSize h.mem addr ((frames * frameSize + 2 ^ 64 - hdrSize) % 2 ^ 64)
    let m := setMagic m addr hdrMagic
    let m := setFree m addr true
    let m := setNext m addr 0
    let h := { h with blockCount := (h.blockCount + 1) % 2 ^ 64, runs := (addr, frames) :: h.runs }
    if h.head = 0 then some (addr, { h with mem := m, head := addr })
    else
      match findTail m fuel h.head with
      | none => none
      | some t => some (addr, { h with mem := setNext m t addr })

/-- `kmalloc`, with what the frame allocator answers to one request after the other; `none` while it
has not returned. -/
def kmalloc (fuel : ℕ) : List (ℕ → ℕ) → KHeap → ℕ → Option (ℕ × KHeap)
  | grants, h, n =>
    let size := align16 (if n = 0 then 1 else n)
    match findFit h.mem size fuel h.head with
    | none => none
    | some b =>
      if b ≠ 0 then some ((b + hdrSize) % 2 ^ 64, takeBlock h b size)
      else
        match grants with
        | [] => none
        | grant :: grants =>
          match regionAlloc fuel grant h size with
          | none => none
          | some (nb, h) => if nb = 0 then some (0, h) else kmalloc fuel grants h size

/-! ### Free -/

/-- `a->size += sizeof(block) + c->size; a->next = c->next; block_count--`. -/
def mergeBlocks (h : KHeap) (a c : ℕ) : KHeap :=
  let m := setSize h.mem a (blkSize h.mem a + (hdrSize + blkSize h.mem c))
  { h with
    mem := setNext m a (blkNext m c)
    blockCount := (h.blockCount + 2 ^ 64 - 1) % 2 ^ 64 }

/-- The merge of `kfree` with the block behind `b`. -/
def mergeNext (h : KHeap) (b : ℕ) : KHeap :=
  let next := blkNext h.mem b
  if next ≠ 0 ∧ blkFree h.mem next = true ∧ adjacent h.mem b next = true then mergeBlocks h b next
  else h

/-- The scan of `kfree` for the block before `b`, from `p` on with `guard` rounds left. -/
def mergePrev (h : KHeap) (b : ℕ) : ℕ → ℕ → KHeap
  | 0, _ => h
  | guard + 1, p =>
    if p = 0 ∨ p = b then h
    else if blkNext h.mem p = b ∧ blkFree h.mem p = true ∧ adjacent h.mem p b = true then
      mergeBlocks h p b
    else mergePrev h b guard (blkNext h.mem p)

/-- `kfree`. -/
def kfree (h : KHeap) (ptr : ℕ) : KHeap :=
  if ptr = 0 then h
  else
    let b := (ptr + 2 ^ 64 - hdrSize) % 2 ^ 64
    if blkMagic h.mem b ≠ hdrMagic then h
    else if blkFree h.mem b = true then h
    else
      let m := setFree h.mem b true
      let h := { h with mem := m, usedBytes := (h.usedBytes + 2 ^ 64 - blkSize m b) % 2 ^ 64 }
      let h := mergeNext h b
      mergePrev h b 100000 h.head

/-! ### Headers in memory -/

/-- The fields of a header. -/
structure Hdr where
  size : ℕ
  magic : ℕ
  free : Bool
  next : ℕ

/-- The header at an address. -/
def hdr (m : Mem) (a : ℕ) : Hdr := ⟨blkSize m a, blkMagic m a, blkFree m a, blkNext m a⟩

/-- The byte is not one of the header at `a`. -/
def OffHdr (a k : ℕ) : Prop := k < a ∨ a + hdrSize ≤ k

variable {m m' : Mem} {a c k : ℕ}

/-- A header depends on its own bytes only. -/
theorem hdr_congr (h : ∀ k, a ≤ k → k < a + hdrSize → m' k = m k) : hdr m' a = hdr m a := by
  rw [hdrSize] at h
  have hload : ∀ w off, off + w ≤ 32 → Mem.load w m' (a + off) = Mem.load w m (a + off) := by
    intro w off hle
    exact Mem.load_congr fun k hk ↦ h _ (by omega) (by omega)
  simp only [hdr, blkSize, blkMagic, blkFree, blkNext, hload 8 8 (by omega), hload 1 16 (by omega),
    hload 8 24 (by omega), show Mem.load 8 m' a = Mem.load 8 m a from hload 8 0 (by omega)]

theorem hdr_setSize (m : Mem) (a v : ℕ) :
    hdr (setSize m a v) a = { hdr m a with size := v % 2 ^ 64 } := by
  simp (disch := omega) only [hdr, blkSize, blkMagic, blkFree, blkNext, setSize,
    Mem.load_store_same, Mem.load_store_of_disjoint, Nat.reducePow]

theorem hdr_setMagic (m : Mem) (a v : ℕ) :
    hdr (setMagic m a v) a = { hdr m a with magic := v % 2 ^ 64 } := by
  simp (disch := omega) only [hdr, blkSize, blkMagic, blkFree, blkNext, setMagic,
    Mem.load_store_same, Mem.load_store_of_disjoint, Nat.reducePow]

theorem hdr_setFree (m : Mem) (a : ℕ) (v : Bool) :
    hdr (setFree m a v) a = { hdr m a with free := v } := by
  simp (disch := omega) only [hdr, blkSize, blkMagic, blkFree, blkNext, setFree,
    Mem.load_store_same, Mem.load_store_of_disjoint]
  cases v <;> rfl

theorem hdr_setNext (m : Mem) (a v : ℕ) :
    hdr (setNext m a v) a = { hdr m a with next := v % 2 ^ 64 } := by
  simp (disch := omega) only [hdr, blkSize, blkMagic, blkFree, blkNext, setNext,
    Mem.load_store_same, Mem.load_store_of_disjoint, Nat.reducePow]

/-! ### The bytes a write leaves alone -/

theorem setSize_off (h : OffHdr a k) (v : ℕ) : setSize m a v k = m k :=
  Mem.store_of_not_mem (h.imp_right fun h ↦ by rw [hdrSize] at h; omega)

theorem setMagic_off (h : OffHdr a k) (v : ℕ) : setMagic m a v k = m k :=
  Mem.store_of_not_mem (by rw [OffHdr, hdrSize] at h; omega)

theorem setFree_off (h : OffHdr a k) (v : Bool) : setFree m a v k = m k :=
  Mem.store_of_not_mem (by rw [OffHdr, hdrSize] at h; omega)

theorem setNext_off (h : OffHdr a k) (v : ℕ) : setNext m a v k = m k :=
  Mem.store_of_not_mem (by rw [OffHdr, hdrSize] at h; omega)

/-- A header is as it was when only bytes of headers that stand apart from it have changed. -/
theorem hdr_of_off (h : ∀ k, OffHdr c k → m' k = m k)
    (hapart : a + hdrSize ≤ c ∨ c + hdrSize ≤ a) : hdr m' a = hdr m a :=
  hdr_congr fun k hlo hhi ↦ h k (by rw [OffHdr]; omega)

end NoOsKernel.Heap
