import NoOsKernel.Lib.BitArray
import NoOsKernel.Lib.Buf

/-!
# On-disk layout of NO_OSFS

`kernel/include/fs.h` and the low-level half of `kernel/fs/noosfs.c`: the superblock, the inode and
the directory entry as byte records with the compiler's field offsets, the sectors the IDE driver
addresses, and the geometry `fs_format` computes from the capacity of the drive.

A record is kept as the bytes it occupies, so that copying it to and from a block is the `memcpy` of
the source and a field is a little-endian number at its offset. `sizeof(struct fs_inode)` is 72:
four bytes of padding follow `nlinks` and four the reserved bytes.
-/

set_option autoImplicit false
set_option relaxedAutoImplicit false

namespace NoOsKernel.Fs

open Lib

/-- A 512-byte block. -/
abbrev Block := Buf 512

/-- `struct fs_inode`. -/
abbrev FsInode := Buf 72

/-- The bytes of a C string, without its terminator. -/
abbrev CStr := List Byte

/-! ### Constants -/

/-- `FS_BLOCK_SIZE`. -/
def fsBlockSize : ℕ := 512

/-- `FS_INODE_COUNT`. -/
def fsInodeCount : ℕ := 256

/-- `FS_NAME_MAX`. -/
def fsNameMax : ℕ := 24

/-- `FS_MAX_BLOCKS`, the direct blocks of an inode. -/
def fsMaxBlocks : ℕ := 10

/-- `INODES_PER_BLOCK`. -/
def inodesPerBlock : ℕ := 7

/-- `DIRENT_PER_BLOCK`. -/
def direntPerBlock : ℕ := 16

/-- `FS_INODE_DIR`. -/
def fsInodeDir : ℕ := 0x4000

/-- `FS_INODE_REG`. -/
def fsInodeReg : ℕ := 0x8000

/-! ### Superblock -/

namespace FsSb

def sig (sb : Block) : ℕ := sb.load 8 0
def version (sb : Block) : ℕ := sb.load 4 8
def blockSize (sb : Block) : ℕ := sb.load 4 12
def blockCount (sb : Block) : ℕ := sb.load 8 16
def bitmapStart (sb : Block) : ℕ := sb.load 8 24
def bitmapBlocks (sb : Block) : ℕ := sb.load 8 32
def inodeStart (sb : Block) : ℕ := sb.load 8 40
def inodeCount (sb : Block) : ℕ := sb.load 8 48
def dataStart (sb : Block) : ℕ := sb.load 8 56
def rootInode (sb : Block) : ℕ := sb.load 4 64
def seq (sb : Block) : ℕ := sb.load 4 68

/-- The eight bytes of `NOOSFS_SIG` (`"NO_OSFS\0"`) as a little-endian number. -/
def noosfsSig : ℕ := 0x005346534f5f4f4e

/-- `sb_valid`. -/
def valid (sb : Block) : Bool :=
  sig sb = noosfsSig && blockSize sb = fsBlockSize && version sb = 2

/-- The superblock with its sequence number replaced. -/
def setSeq (sb : Block) (v : ℕ) : Block := sb.store 4 68 v

end FsSb

/-! ### Inode -/

namespace FsInode

/-- The inode after `memset`. -/
def zero : FsInode := Buf.zero 72

def mode (i : FsInode) : ℕ := i.load 2 0
def size (i : FsInode) : ℕ := i.load 8 8

/-- `blocks[j]`. -/
def block (i : FsInode) (j : ℕ) : ℕ := i.load 4 (24 + 4 * j)

def setMode (i : FsInode) (v : ℕ) : FsInode := i.store 2 0 v
def setNlinks (i : FsInode) (v : ℕ) : FsInode := i.store 2 2 v
def setSize (i : FsInode) (v : ℕ) : FsInode := i.store 8 8 v
def setMtime (i : FsInode) (v : ℕ) : FsInode := i.store 4 16 v
def setBlock (i : FsInode) (j v : ℕ) : FsInode := i.store 4 (24 + 4 * j) v

@[simp] theorem size_zero : size zero = 0 := Buf.load_zero _ _

@[simp] theorem block_zero (j : ℕ) : block zero j = 0 := Buf.load_zero _ _

@[simp] theorem size_setMode (i : FsInode) (v : ℕ) : (i.setMode v).size = i.size :=
  Buf.load_store_of_disjoint _ _ _ _ _ _ (by omega)

@[simp] theorem size_setNlinks (i : FsInode) (v : ℕ) : (i.setNlinks v).size = i.size :=
  Buf.load_store_of_disjoint _ _ _ _ _ _ (by omega)

@[simp] theorem size_setMtime (i : FsInode) (v : ℕ) : (i.setMtime v).size = i.size :=
  Buf.load_store_of_disjoint _ _ _ _ _ _ (by omega)

theorem size_setSize (i : FsInode) (v : ℕ) : (i.setSize v).size = v % 2 ^ 64 :=
  Buf.load_store_same _ _ _ _ (by omega)

@[simp] theorem block_setMode (i : FsInode) (v j : ℕ) : (i.setMode v).block j = i.block j :=
  Buf.load_store_of_disjoint _ _ _ _ _ _ (by omega)

@[simp] theorem block_setNlinks (i : FsInode) (v j : ℕ) : (i.setNlinks v).block j = i.block j :=
  Buf.load_store_of_disjoint _ _ _ _ _ _ (by omega)

@[simp] theorem block_setMtime (i : FsInode) (v j : ℕ) : (i.setMtime v).block j = i.block j :=
  Buf.load_store_of_disjoint _ _ _ _ _ _ (by omega)

@[simp] theorem block_setSize (i : FsInode) (v j : ℕ) : (i.setSize v).block j = i.block j :=
  Buf.load_store_of_disjoint _ _ _ _ _ _ (by omega)

theorem block_setBlock (i : FsInode) {j : ℕ} (hj : j < fsMaxBlocks) (v k : ℕ) :
    (i.setBlock j v).block k = if k = j then v % 2 ^ 32 else i.block k := by
  split_ifs with hkj
  · subst hkj
    exact Buf.load_store_same _ _ _ _ (by unfold fsMaxBlocks at hj; omega)
  · exact Buf.load_store_of_disjoint _ _ _ _ _ _ (by omega)

end FsInode

/-! ### Directory block -/

namespace FsDirent

/-- The inode number of entry `e` of a directory block; `0` marks a free entry. -/
def inode (blk : Block) (e : ℕ) : ℕ := blk.load 4 (32 * e)

/-- The name length of entry `e`. -/
def namelen (blk : Block) (e : ℕ) : ℕ := blk.load 1 (32 * e + 6)

/-- Byte `i` of the name field of entry `e`. -/
def nameByte (blk : Block) (e i : ℕ) : Byte := blk.get (32 * e + 8 + i)

/-- The name of entry `e`. -/
def name (blk : Block) (e : ℕ) : CStr := (List.range (namelen blk e)).map (nameByte blk e)

/-- The entry `dir_add_entry` builds: `memset`, the five fields, and `nlen` bytes of the name. -/
def make (ino type : ℕ) (nm : CStr) : Buf 32 := fun k ↦
  if (k : ℕ) < 4 then BitVec.ofNat 8 (ino / 256 ^ (k : ℕ))
  else if (k : ℕ) < 6 then BitVec.ofNat 8 (32 / 256 ^ ((k : ℕ) - 4))
  else if (k : ℕ) = 6 then BitVec.ofNat 8 nm.length
  else if (k : ℕ) = 7 then BitVec.ofNat 8 type
  else nm.getD ((k : ℕ) - 8) 0

/-- The directory block with entry `e` replaced. -/
def put (blk : Block) (e : ℕ) (d : Buf 32) : Block := blk.splice (32 * e) d

/-- A directory entry carries a name: the test of `fs_lookup` and `dir_find_slot`. -/
def isNamed (nm : CStr) (blk : Block) (e : ℕ) : Bool :=
  inode blk e ≠ 0 && namelen blk e = nm.length && name blk e = nm

/-- A directory entry is free: the test of `dir_add_entry`. -/
def isFree (blk : Block) (e : ℕ) : Bool := inode blk e = 0

theorem isNamed_iff {nm : CStr} {blk : Block} {e : ℕ} :
    isNamed nm blk e ↔ inode blk e ≠ 0 ∧ name blk e = nm := by
  simp only [isNamed, ne_eq, decide_not, Bool.and_eq_true, Bool.not_eq_true',
    decide_eq_false_iff_not, decide_eq_true_eq]
  constructor
  · rintro ⟨⟨hne, -⟩, hname⟩
    exact ⟨hne, hname⟩
  · rintro ⟨hne, hname⟩
    exact ⟨⟨hne, by rw [← hname]; simp [name]⟩, hname⟩

theorem inode_zero (e : ℕ) : inode (Buf.zero 512) e = 0 := Buf.load_zero _ _

section Put

variable (blk : Block) (d : Buf 32) {e : ℕ}

/-- Every byte of another entry is unchanged. -/
theorem get_put_of_ne {e' : ℕ} (hne : e' ≠ e) {k : ℕ} (hk : k < 32) :
    (put blk e d).get (32 * e' + k) = blk.get (32 * e' + k) := by
  by_cases hin : 32 * e' + k < 512
  · rw [put, Buf.get_splice _ _ _ _ hin, if_neg (by omega)]
  · rw [Buf.get_of_le _ (by omega), Buf.get_of_le _ (by omega)]

/-- The entry itself is the one written. -/
theorem get_put_same (he : e < direntPerBlock) {k : ℕ} (hk : k < 32) :
    (put blk e d).get (32 * e + k) = d.get k := by
  unfold direntPerBlock at he
  rw [put, Buf.get_splice _ _ _ _ (by omega), if_pos (by omega), Nat.add_sub_cancel_left]

theorem inode_put_same (he : e < direntPerBlock) : inode (put blk e d) e = d.load 4 0 :=
  Buf.load_congr fun k hk ↦ by rw [get_put_same blk d he (by omega), Nat.zero_add]

theorem inode_put_of_ne {e' : ℕ} (hne : e' ≠ e) :
    inode (put blk e d) e' = inode blk e' :=
  Buf.load_congr fun _ hk ↦ get_put_of_ne blk d hne (by omega)

theorem namelen_put_of_ne {e' : ℕ} (hne : e' ≠ e) :
    namelen (put blk e d) e' = namelen blk e' :=
  Buf.load_congr fun k hk ↦ by
    rw [Nat.add_assoc]
    exact get_put_of_ne blk d hne (by omega)

theorem name_put_of_ne {e' : ℕ} (hne : e' ≠ e)
    (hlen : namelen blk e' ≤ fsNameMax) : name (put blk e d) e' = name blk e' := by
  unfold fsNameMax at hlen
  rw [name, name, namelen_put_of_ne blk d hne]
  apply List.map_congr_left
  intro i hi
  rw [List.mem_range] at hi
  rw [nameByte, nameByte, Nat.add_assoc]
  exact get_put_of_ne blk d hne (by omega)

end Put

section Make

variable {blk : Block} {ino type : ℕ} {nm : CStr} {e : ℕ}

theorem get_make {k : ℕ} (hk : k < 32) : (make ino type nm).get k =
    if k < 4 then BitVec.ofNat 8 (ino / 256 ^ k)
    else if k < 6 then BitVec.ofNat 8 (32 / 256 ^ (k - 4))
    else if k = 6 then BitVec.ofNat 8 nm.length
    else if k = 7 then BitVec.ofNat 8 type
    else nm.getD (k - 8) 0 := by
  rw [Buf.get_of_lt _ hk]
  rfl

theorem inode_put_make (he : e < direntPerBlock) (hino : ino < 2 ^ 32) :
    inode (put blk e (make ino type nm)) e = ino := by
  rw [inode_put_same _ _ he, Buf.load_eq_of_bytes ino, Nat.mod_eq_of_lt (by simpa using hino)]
  intro k hk
  rw [get_make (by omega), if_pos (by omega), Nat.zero_add]

theorem namelen_put_make (he : e < direntPerBlock) (hnm : nm.length ≤ fsNameMax) :
    namelen (put blk e (make ino type nm)) e = nm.length := by
  unfold fsNameMax at hnm
  rw [namelen, Buf.load_eq_of_bytes nm.length, Nat.mod_eq_of_lt (by omega)]
  intro k hk
  obtain rfl : k = 0 := by omega
  rw [Nat.add_zero, get_put_same _ _ he (by omega), get_make (by omega)]
  simp

theorem name_put_make (he : e < direntPerBlock) (hnm : nm.length ≤ fsNameMax) :
    name (put blk e (make ino type nm)) e = nm := by
  rw [name, namelen_put_make he hnm]
  unfold fsNameMax at hnm
  apply List.ext_getElem
  · simp
  · intro i hi hi'
    rw [List.getElem_map, List.getElem_range, nameByte, Nat.add_assoc,
      get_put_same _ _ he (by omega), get_make (by omega), if_neg (by omega), if_neg (by omega),
      if_neg (by omega), if_neg (by omega), Nat.add_sub_cancel_left, List.getD_eq_getElem?_getD,
      List.getElem?_eq_getElem hi', Option.getD_some]

end Make

end FsDirent

end NoOsKernel.Fs
