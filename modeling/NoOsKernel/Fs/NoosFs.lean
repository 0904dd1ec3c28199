import NoOsKernel.Fs.Layout

/-!
# NO_OSFS operations

`kernel/fs/noosfs.c`, function by function, on an explicit state: the sectors of the drive, the
superblock in RAM, the two RAM bitmaps and the mounted flag. Disk transfers succeed
(`ide_read_sectors` and `ide_write_sectors` always return `0`); memory does not have to
(`kmalloc` is a parameter of the two functions that allocate). A bitmap pointer that is `NULL`
after a failed mount is the empty bit array.

`root_cache` is not part of the state: every entry point loads it first, so it is the value
`rootLoad` returns. The branch of `dir_add_entry` that extends the directory tests `blocks[bi] == 0`
after the loop has already left on that condition. `dirAddEntry` does without it; `dirAddLoop` is the
loop with that branch, and `dirAddEntry_eq_loop` says that they agree.
-/

set_option autoImplicit false
set_option relaxedAutoImplicit false

namespace NoOsKernel.Fs

open Lib

/-! ### State and block I/O -/

/-- The drive: its LBA28 capacity in sectors, `0` when the drive reported no geometry. -/
structure Drive where
  sectors : ℕ
  sectors_le : sectors ≤ 2 ^ 28

/-- The filesystem state. -/
structure FsState where
  disk : ℕ → Block
  sb : Block
  inodeBitmap : List Byte
  clusterBitmap : List Byte
  mounted : Bool

namespace FsState

abbrev blockCount (s : FsState) : ℕ := FsSb.blockCount s.sb
abbrev bitmapStart (s : FsState) : ℕ := FsSb.bitmapStart s.sb
abbrev bitmapBlocks (s : FsState) : ℕ := FsSb.bitmapBlocks s.sb
abbrev inodeStart (s : FsState) : ℕ := FsSb.inodeStart s.sb
abbrev inodeCount (s : FsState) : ℕ := FsSb.inodeCount s.sb
abbrev dataStart (s : FsState) : ℕ := FsSb.dataStart s.sb
abbrev rootInode (s : FsState) : ℕ := FsSb.rootInode s.sb

end FsState

/-- The sector a transfer addresses: the block number is cut to `u32`, and the drive registers take
28 bits of it. -/
def ideSector (lba : ℕ) : ℕ := lba % 2 ^ 32 % 2 ^ 28

/-- `disk_read_block`. -/
def diskReadBlock (disk : ℕ → Block) (lba : ℕ) : Block := disk (ideSector lba)

/-- `disk_write_block`. -/
def diskWriteBlock (disk : ℕ → Block) (lba : ℕ) (buf : Block) : ℕ → Block := fun k ↦
  if k = ideSector lba then buf else disk k

/-- The loop that writes `n` consecutive blocks. -/
def diskWriteBlocks (start : ℕ) (buf : ℕ → Block) : ℕ → (ℕ → Block) → ℕ → Block
  | 0, disk => disk
  | n + 1, disk => diskWriteBlock (diskWriteBlocks start buf n disk) (start + n) (buf n)

/-! ### Inode table -/

/-- `inode_lba`. -/
def inodeLba (s : FsState) (ino : ℕ) : ℕ := s.inodeStart + ino / inodesPerBlock

/-- `read_inode`. -/
def readInode (s : FsState) (ino : ℕ) : FsInode :=
  (diskReadBlock s.disk (inodeLba s ino)).slice 72 (ino % inodesPerBlock * 72)

/-- `write_inode`. -/
def writeInode (s : FsState) (ino : ℕ) (i : FsInode) : FsState :=
  let block := (diskReadBlock s.disk (inodeLba s ino)).splice (ino % inodesPerBlock * 72) i
  { s with disk := diskWriteBlock s.disk (inodeLba s ino) block }

/-! ### Allocation -/

/-- `fs_alloc_cluster`; `none` is `(u32)-1`. -/
def fsAllocCluster (s : FsState) : Option (ℕ × FsState) :=
  if s.mounted then
    (firstClear s.clusterBitmap 1 s.blockCount).map fun c ↦
      (c, { s with clusterBitmap := bitSet s.clusterBitmap c })
  else none

/-- `fs_free_cluster`. -/
def fsFreeCluster (s : FsState) (c : ℕ) : FsState :=
  if c < s.blockCount then { s with clusterBitmap := bitClr s.clusterBitmap c } else s

/-- `fs_alloc_inode`. -/
def fsAllocInode (s : FsState) : Option (ℕ × FsState) :=
  (firstClear s.inodeBitmap 1 s.inodeCount).map fun i ↦
    (i, { s with inodeBitmap := bitSet s.inodeBitmap i })

/-! ### Superblock and format -/

/-- `sb_write_all`. -/
def sbWriteAll (s : FsState) : FsState :=
  let sb := FsSb.setSeq s.sb (FsSb.seq s.sb + 1)
  { s with sb := sb, disk := diskWriteBlock (diskWriteBlock s.disk 1 sb) 0 sb }

/-- `read_any_sb`: the newer of the valid superblock copies. -/
def readAnySb (s : FsState) : Option Block :=
  let sb0 := diskReadBlock s.disk 0
  let sb1 := diskReadBlock s.disk 1
  match FsSb.valid sb0, FsSb.valid sb1 with
  | true, true => some (if FsSb.seq sb0 ≥ FsSb.seq sb1 then sb0 else sb1)
  | true, false => some sb0
  | false, true => some sb1
  | false, false => none

/-- `swap_geometry`, the first block of the swap tail. -/
def swapStart (diskBlocks : ℕ) : ℕ :=
  let blocks := if diskBlocks / 4 < 8 then 8 else diskBlocks / 4
  (diskBlocks + 2 ^ 64 - blocks) % 2 ^ 64

/-- `fs_usable_blocks`, with the probe default of `disk_total_blocks`. -/
def fsUsableBlocks (d : Drive) : ℕ :=
  swapStart (if d.sectors = 0 then 32 * 1024 * 1024 / 512 else d.sectors)

/-- The geometry `fs_format` computes, in `u64` arithmetic. -/
structure Geometry where
  blockCount : ℕ
  bitmapBlocks : ℕ
  inodeBlocks : ℕ
  dataStart : ℕ

/-- The size computation at the head of `fs_format`. -/
def fsGeometry (total : ℕ) : Geometry :=
  let bitmapBlocks := (total + 8 * 512 - 1) % 2 ^ 64 / (8 * 512)
  let inodeBlocks := (fsInodeCount * 72 + fsBlockSize - 1) / fsBlockSize
  let dataStart := 2 + bitmapBlocks + inodeBlocks
  let nblocks := (total + 2 ^ 64 - dataStart) % 2 ^ 64
  -- second pass, against the final cluster count
  let bitmapBlocks := (nblocks + 8 * 512 - 1) % 2 ^ 64 / (8 * 512)
  let dataStart := 2 + bitmapBlocks + inodeBlocks
  let nblocks := (total + 2 ^ 64 - dataStart) % 2 ^ 64
  { blockCount := nblocks, bitmapBlocks, inodeBlocks, dataStart }

/-- The superblock `fs_format` builds, before `sb_write_all` bumps its sequence number. -/
def formatSb (g : Geometry) : Block :=
  let sb := (Buf.zero 512).store 8 0 FsSb.noosfsSig
  let sb := (sb.store 4 8 2).store 4 12 fsBlockSize
  let sb := (sb.store 8 16 g.blockCount).store 8 24 2
  let sb := (sb.store 8 32 g.bitmapBlocks).store 8 40 (2 + g.bitmapBlocks)
  let sb := (sb.store 8 48 fsInodeCount).store 8 56 g.dataStart
  sb.store 4 68 1

/-- `fs_format`; the flag is `false` when it returns `-1` for lack of memory. -/
def fsFormat (kmalloc : ℕ → Bool) (d : Drive) (s : FsState) : Bool × FsState :=
  let g := fsGeometry (fsUsableBlocks d)
  let s := { s with sb := formatSb g }
  if kmalloc (g.bitmapBlocks * fsBlockSize) then
    let s := { s with disk := diskWriteBlocks 2 (fun _ ↦ Buf.zero 512) g.bitmapBlocks s.disk }
    if kmalloc (g.inodeBlocks * fsBlockSize) then
      let s := { s with
        disk := diskWriteBlocks s.inodeStart (fun _ ↦ Buf.zero 512) g.inodeBlocks s.disk }
      let root := (FsInode.zero.setMode fsInodeDir).setNlinks 2
      (true, sbWriteAll (writeInode s 0 root))
    else (false, s)
  else (false, s)

/-! ### Mount and bitmap flush -/

/-- The RAM image of the bitmap blocks on disk. -/
def loadBitmap (disk : ℕ → Block) (start n : ℕ) : List Byte :=
  (List.range n).flatMap fun b ↦ List.ofFn (diskReadBlock disk (start + b))

/-- `fs_mount`; the flag is `false` when it returns `-1`. -/
def fsMount (kmalloc : ℕ → Bool) (s : FsState) : Bool × FsState :=
  match readAnySb s with
  | none => (false, s)
  | some sb =>
    let s := { s with sb := sb }
    if kmalloc (s.bitmapBlocks * fsBlockSize) && kmalloc ((fsInodeCount + 7) / 8) then
      (true, { s with
        clusterBitmap := loadBitmap s.disk s.bitmapStart s.bitmapBlocks
        inodeBitmap := bitSet (List.replicate ((fsInodeCount + 7) / 8) 0) s.rootInode
        mounted := true })
    else (false, { s with clusterBitmap := [], inodeBitmap := [] })

/-- Block `b` of a RAM bitmap. -/
def bitmapBlock (bitmap : List Byte) (b : ℕ) : Block := fun k ↦ bitmap.getD (b * 512 + k) 0

/-- `fs_sync_bitmap`. -/
def fsSyncBitmap (s : FsState) : FsState :=
  if s.mounted then
    { s with
      disk := diskWriteBlocks s.bitmapStart (bitmapBlock s.clusterBitmap) s.bitmapBlocks s.disk }
  else s

/-! ### Data area -/

/-- `fs_cluster_write`; `none` is `-1`. -/
def fsClusterWrite (s : FsState) (c : ℕ) (buf : Block) : Option FsState :=
  if s.blockCount ≤ c then none
  else some { s with disk := diskWriteBlock s.disk (s.dataStart + c) buf }

/-- `fs_cluster_read`; `none` is `-1`. -/
def fsClusterRead (s : FsState) (c : ℕ) : Option Block :=
  if s.blockCount ≤ c then none else some (diskReadBlock s.disk (s.dataStart + c))

/-! ### Directory -/

/-- `root_load`. -/
def rootLoad (s : FsState) : FsInode := readInode s s.rootInode

/-- `root_ensure_block`: the root inode with a data block, `none` when no cluster is left. -/
def rootEnsureBlock (s : FsState) (root : FsInode) : Option FsInode × FsState :=
  if root.size > 0 then (some root, s)
  else
    match fsAllocCluster s with
    | none => (none, s)
    | some (c, s) =>
      match fsClusterWrite s c (Buf.zero 512) with
      | none => (none, s)
      | some s =>
        let root := (root.setBlock 0 c).setSize fsBlockSize
        (some root, writeInode s s.rootInode root)

/-- The loop over the directory blocks that `fs_lookup`, `dir_find_slot` and `dir_add_entry` share:
the block index and entry of the first entry that passes a test, stopping at the first absent
block. -/
def dirScan (s : FsState) (root : FsInode) (test : Block → ℕ → Bool) : List ℕ → Option (ℕ × ℕ)
  | [] => none
  | bi :: rest =>
    if root.block bi = 0 then none
    else
      match fsClusterRead s (root.block bi) with
      | none => none
      | some blk =>
        match (List.range direntPerBlock).find? (test blk) with
        | some e => some (bi, e)
        | none => dirScan s root test rest

/-- `dir_find_slot`. -/
def dirFindSlot (s : FsState) (root : FsInode) (nm : CStr) : Option (ℕ × ℕ) :=
  dirScan s root (FsDirent.isNamed nm) (List.range fsMaxBlocks)

/-- A `u32` read as an `int`. -/
def toInt32 (v : ℕ) : ℤ := if v < 2 ^ 31 then v else (v : ℤ) - 2 ^ 32

/-- The directory block in a slot `dirScan` found. -/
def dirBlock (s : FsState) (root : FsInode) (bi : ℕ) : Block :=
  diskReadBlock s.disk (s.dataStart + root.block bi)

/-- `fs_lookup`. -/
def fsLookup (s : FsState) (nm : CStr) : ℤ :=
  if s.mounted then
    match dirFindSlot s (rootLoad s) nm with
    | some (bi, e) => toInt32 (FsDirent.inode (dirBlock s (rootLoad s) bi) e)
    | none => -1
  else -1

/-- `dir_add_entry`; the flag is `false` when it returns `-1`. -/
def dirAddEntry (s : FsState) (nm : CStr) (ino type : ℕ) : Bool × FsState :=
  if nm.length = 0 ∨ nm.length > fsNameMax then (false, s)
  else
    match rootEnsureBlock s (rootLoad s) with
    | (none, s) => (false, s)
    | (some root, s) =>
      match dirScan s root FsDirent.isFree (List.range fsMaxBlocks) with
      | none => (false, s)
      | some (bi, e) =>
        let blk := FsDirent.put (dirBlock s root bi) e (FsDirent.make ino type nm)
        match fsClusterWrite s (root.block bi) blk with
        | none => (false, s)
        | some s => (true, s)

/-- The loop of `dir_add_entry` as it is written, with the branch that extends the directory. -/
def dirAddLoop (s : FsState) (root : FsInode) (nm : CStr) (ino type : ℕ) : List ℕ → Bool × FsState
  | [] => (false, s)
  | bi :: rest =>
    if root.block bi = 0 then (false, s)
    else
      match fsClusterRead s (root.block bi) with
      | none => (false, s)
      | some blk =>
        match (List.range direntPerBlock).find? (FsDirent.isFree blk) with
        | some e =>
          match fsClusterWrite s (root.block bi)
              (FsDirent.put blk e (FsDirent.make ino type nm)) with
          | none => (false, s)
          | some s => (true, s)
        | none =>
          if root.block bi = 0 then
            match fsAllocCluster s with
            | none => (false, s)
            | some (c, s) =>
              match fsClusterWrite s c (Buf.zero 512) with
              | none => (false, s)
              | some s =>
                let root := (root.setBlock bi c).setSize (root.size + fsBlockSize)
                (true, writeInode s s.rootInode root)
          else dirAddLoop s root nm ino type rest

/-- That branch is never taken: the loop fills the first free entry that `dirScan` finds. -/
theorem dirAddLoop_eq (s : FsState) (root : FsInode) (nm : CStr) (ino type : ℕ) (slots : List ℕ) :
    dirAddLoop s root nm ino type slots =
      match dirScan s root FsDirent.isFree slots with
      | none => (false, s)
      | some (bi, e) =>
        match fsClusterWrite s (root.block bi)
            (FsDirent.put (dirBlock s root bi) e (FsDirent.make ino type nm)) with
        | none => (false, s)
        | some s => (true, s) := by
  induction slots with
  | nil => rfl
  | cons bi rest ih =>
    by_cases hblk : root.block bi = 0
    · simp only [dirAddLoop, dirScan, if_pos hblk]
    · simp only [dirAddLoop, dirScan, if_neg hblk, fsClusterRead]
      by_cases hend : s.blockCount ≤ root.block bi
      · simp only [if_pos hend]
      · simp only [if_neg hend]
        rw [← dirBlock]
        rcases (List.range direntPerBlock).find? (FsDirent.isFree (dirBlock s root bi)) with - | e
        · exact ih
        · rfl

theorem dirAddEntry_eq_loop (s : FsState) (nm : CStr) (ino type : ℕ) :
    dirAddEntry s nm ino type =
      if nm.length = 0 ∨ nm.length > fsNameMax then (false, s)
      else
        match rootEnsureBlock s (rootLoad s) with
        | (none, s) => (false, s)
        | (some root, s) => dirAddLoop s root nm ino type (List.range fsMaxBlocks) := by
  rw [dirAddEntry]
  simp only [dirAddLoop_eq]

/-! ### File operations -/

/-- The inode `fs_create` writes. -/
def newInode (mode ticks : ℕ) : FsInode :=
  ((FsInode.zero.setMode mode).setNlinks 1).setMtime ticks

/-- `fs_create`; `ticks` is `pit_ticks()`. -/
def fsCreate (s : FsState) (nm : CStr) (mode ticks : ℕ) : ℤ × FsState :=
  if !s.mounted then (-1, s)
  else if fsLookup s nm ≥ 0 then (-1, s)
  else
    match fsAllocInode s with
    | none => (-1, s)
    | some (ino, s) =>
      let s := writeInode s ino (newInode mode ticks)
      match dirAddEntry s nm ino (if mode = fsInodeDir then 2 else 1) with
      | (false, s) => (-1, s)
      | (true, s) => (ino, s)

/-- The first loop of `fs_write_file`: free the blocks of the listed slots. -/
def freeBlocks : List ℕ → FsState → FsInode → FsState × FsInode
  | [], s, i => (s, i)
  | j :: rest, s, i =>
    if i.block j ≠ 0 then freeBlocks rest (fsFreeCluster s (i.block j)) (i.setBlock j 0)
    else freeBlocks rest s i

/-- The block buffer `fs_write_file` fills for slot `j`: the file's bytes, then zeros. -/
def fileBlock (data : ℕ → Byte) (size j : ℕ) : Block := fun k ↦
  if j * fsBlockSize + k < size then data (j * fsBlockSize + k) else 0

/-- One round of the second loop of `fs_write_file`: give slot `j` a cluster if it has none, and
write the cluster. The inode is `none` when the function returns `-1`. -/
def writeSlot (data : ℕ → Byte) (size j : ℕ) (s : FsState) (i : FsInode) :
    Option FsInode × FsState :=
  let slot : Option (FsInode × FsState) :=
    if i.block j = 0 then (fsAllocCluster s).map fun (c, s) ↦ (i.setBlock j c, s)
    else some (i, s)
  match slot with
  | none => (none, s)
  | some (i, s) =>
    match fsClusterWrite s (i.block j) (fileBlock data size j) with
    | none => (none, s)
    | some s => (some i, s)

/-- The second loop of `fs_write_file`, over the listed slots. -/
def writeBlocks (data : ℕ → Byte) (size : ℕ) :
    List ℕ → FsState → FsInode → Option FsInode × FsState
  | [], s, i => (some i, s)
  | j :: rest, s, i =>
    match writeSlot data size j s i with
    | (none, s) => (none, s)
    | (some i, s) => writeBlocks data size rest s i

/-- The number of blocks of a file, in `u64` arithmetic. -/
def fileBlocks (size : ℕ) : ℕ := (size + fsBlockSize - 1) % 2 ^ 64 / fsBlockSize

/-- The inode `fs_write_file` stores at the end. -/
def finishInode (i : FsInode) (size ticks : ℕ) : FsInode :=
  let i := ((i.setSize size).setMtime ticks).setNlinks 1
  i.setMode (i.mode ||| fsInodeReg)

/-- `fs_write_file` of the `size` bytes at `data`; the flag is `false` when it returns `-1`. -/
def fsWriteFile (s : FsState) (ino : ℕ) (data : ℕ → Byte) (size ticks : ℕ) : Bool × FsState :=
  if !s.mounted then (false, s)
  else if fileBlocks size > fsMaxBlocks then (false, s)
  else
    let n := fileBlocks size
    let (s, i) := freeBlocks (List.range' n (fsMaxBlocks - n)) s (readInode s ino)
    match writeBlocks data size (List.range n) s i with
    | (none, s) => (false, s)
    | (some i, s) => (true, writeInode s ino (finishInode i size ticks))

/-- The loop of `fs_unlink` that frees every block of an inode. -/
def freeAll (s : FsState) (i : FsInode) : FsState :=
  (List.range fsMaxBlocks).foldl
    (fun s j ↦ if i.block j ≠ 0 then fsFreeCluster s (i.block j) else s) s

/-- `fs_unlink`; the flag is `false` when it returns `-1`. -/
def fsUnlink (s : FsState) (nm : CStr) : Bool × FsState :=
  if !s.mounted then (false, s)
  else
    let found := fsLookup s nm
    if found = -1 then (false, s)
    else
      let ino := (found % 2 ^ 32).toNat
      match dirFindSlot s (rootLoad s) nm with
      | none => (false, s)
      | some (bi, e) =>
        let root := rootLoad s
        let s := writeInode (freeAll s (readInode s ino)) ino FsInode.zero
        let s := { s with inodeBitmap := bitClr s.inodeBitmap ino }
        let blk := FsDirent.put (dirBlock s root bi) e (Buf.zero 32)
        (true, (fsClusterWrite s (root.block bi) blk).getD s)

/-! ### Boot -/

/-- `fs_init` formats the disk: there is no superblock, or the data area of the one found reaches
into the swap tail. -/
def needsFormat (d : Drive) (s : FsState) : Bool :=
  match readAnySb s with
  | none => true
  | some sb => (FsSb.dataStart sb + FsSb.blockCount sb) % 2 ^ 64 > fsUsableBlocks d

/-- `fs_init`; the flag is `false` when it returns `-1`. The superblock `read_any_sb` finds is the
one in RAM from then on. -/
def fsInit (present : Bool) (kmalloc kmalloc' : ℕ → Bool) (d : Drive) (s : FsState) :
    Bool × FsState :=
  if !present then (false, s)
  else
    let s := { s with sb := (readAnySb s).getD s.sb }
    if needsFormat d s then
      match fsFormat kmalloc d s with
      | (false, s) => (false, s)
      | (true, s) => fsMount kmalloc' s
    else fsMount kmalloc' s

end NoOsKernel.Fs
