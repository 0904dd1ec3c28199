import NoOsKernel.Fs.Session
import NoOsKernel.Lib.SlotTable
import Mathlib.Data.Set.Finite.Basic

/-!
# The root directory as a map

A directory block is a table of 16 slots (`Lib.slotLookup`), and the map it stores takes names of 1
to 24 bytes to inode numbers (`dirMap`). The invariant `RootOk` of a mount session needs nothing of
the allocation bitmaps but the bit of cluster 1, so that it holds on a drive of any capacity: the
root directory has no block, or its only block is cluster 1, which nothing but the directory code
writes.

The results of `fs_create`, `fs_lookup` and `fs_unlink` are those of the map, in every session that
starts on a freshly formatted and mounted disk (`root_refines_map`).
-/

set_option autoImplicit false
set_option relaxedAutoImplicit false

namespace NoOsKernel.Fs

open Lib

/-! ### The map in a directory block -/

/-- Entry `e` of a directory block as a slot: free, or a name with its inode number. -/
def dirSlot (blk : Block) (e : ℕ) : Option (CStr × ℕ) :=
  if FsDirent.inode blk e = 0 then none else some (FsDirent.name blk e, FsDirent.inode blk e)

/-- The map a directory block stores. -/
def dirMap (blk : Block) : CStr → Option ℕ := slotLookup (dirSlot blk) direntPerBlock

/-- Names occupy one entry each and have 1 to 24 bytes, and inode numbers lie in the table. -/
structure DirBlockOk (blk : Block) : Prop where
  distinct : SlotsDistinct (dirSlot blk) direntPerBlock
  small : ∀ e < direntPerBlock, FsDirent.inode blk e ≠ 0 → FsDirent.inode blk e < 256
  named : ∀ e < direntPerBlock, FsDirent.inode blk e ≠ 0 →
    1 ≤ FsDirent.namelen blk e ∧ FsDirent.namelen blk e ≤ fsNameMax

section Block

variable {blk : Block} {nm : CStr} {e ino : ℕ}

theorem dirSlot_of_eq (h : FsDirent.inode blk e = 0) : dirSlot blk e = none := if_pos h

theorem dirSlot_of_ne (h : FsDirent.inode blk e ≠ 0) :
    dirSlot blk e = some (FsDirent.name blk e, FsDirent.inode blk e) := if_neg h

theorem dirSlot_eq_some : dirSlot blk e = some (nm, ino) ↔
    ino ≠ 0 ∧ FsDirent.inode blk e = ino ∧ FsDirent.name blk e = nm := by
  rw [dirSlot]
  split_ifs with hzero
  · rw [hzero]
    exact ⟨nofun, fun h ↦ absurd h.2.1.symm h.1⟩
  · rw [Option.some.injEq, Prod.mk.injEq]
    constructor
    · rintro ⟨rfl, rfl⟩
      exact ⟨hzero, rfl, rfl⟩
    · rintro ⟨-, hino, hname⟩
      exact ⟨hname, hino⟩

theorem dirSlot_zero (e : ℕ) : dirSlot (Buf.zero 512) e = none :=
  dirSlot_of_eq (FsDirent.inode_zero e)

theorem dirMap_zero (nm : CStr) : dirMap (Buf.zero 512) nm = none :=
  List.findSome?_eq_none_iff.mpr fun e _ ↦ by rw [dirSlot_zero]; rfl

theorem DirBlockOk.zero : DirBlockOk (Buf.zero 512) where
  distinct e _ e' _ k v v' hv := by
    rw [dirSlot_zero] at hv
    cases hv
  small e _ hne := absurd (FsDirent.inode_zero e) hne
  named e _ hne := absurd (FsDirent.inode_zero e) hne

/-- The names of the map have 1 to 24 bytes, and its values lie in the inode table. -/
theorem DirBlockOk.of_map (h : DirBlockOk blk) (hmap : dirMap blk nm = some ino) :
    0 < ino ∧ ino < 256 ∧ 1 ≤ nm.length ∧ nm.length ≤ fsNameMax := by
  obtain ⟨e, he, hslot⟩ := (slotLookup_eq_some h.distinct).mp hmap
  obtain ⟨hne, rfl, rfl⟩ := dirSlot_eq_some.1 hslot
  have hlen : (FsDirent.name blk e).length = FsDirent.namelen blk e := by simp [FsDirent.name]
  rw [hlen]
  exact ⟨Nat.pos_of_ne_zero hne, h.small e he hne, h.named e he hne⟩

/-- The search for a name in a block finds what the map has. -/
theorem DirBlockOk.find_named (h : DirBlockOk blk) (nm : CStr) :
    ((List.range direntPerBlock).find? (FsDirent.isNamed nm blk) = none ∧ dirMap blk nm = none) ∨
      ∃ e < direntPerBlock, (List.range direntPerBlock).find? (FsDirent.isNamed nm blk) = some e ∧
        dirSlot blk e = some (nm, FsDirent.inode blk e) ∧
        dirMap blk nm = some (FsDirent.inode blk e) := by
  rcases hfind : (List.range direntPerBlock).find? (FsDirent.isNamed nm blk) with - | e
  · refine Or.inl ⟨rfl, (slotLookup_eq_none h.distinct).mpr fun e he v hslot ↦ ?_⟩
    obtain ⟨hne, hino, hname⟩ := dirSlot_eq_some.1 hslot
    exact List.find?_eq_none.mp hfind e (List.mem_range.mpr he)
      (FsDirent.isNamed_iff.mpr ⟨hino ▸ hne, hname⟩)
  · have he := List.mem_range.mp (List.mem_of_find?_eq_some hfind)
    obtain ⟨hne, hname⟩ := FsDirent.isNamed_iff.mp (List.find?_some hfind)
    have hslot : dirSlot blk e = some (nm, FsDirent.inode blk e) :=
      dirSlot_eq_some.2 ⟨hne, rfl, hname⟩
    exact Or.inr ⟨e, he, rfl, hslot, (slotLookup_eq_some h.distinct).mpr ⟨e, he, hslot⟩⟩

/-- Another entry is the same slot after an entry was replaced. -/
theorem DirBlockOk.dirSlot_put (h : DirBlockOk blk) (d : Buf 32) {e' : ℕ} (he' : e' < direntPerBlock)
    (hne : e' ≠ e) : dirSlot (FsDirent.put blk e d) e' = dirSlot blk e' := by
  rw [dirSlot, dirSlot, FsDirent.inode_put_of_ne blk d hne]
  split_ifs with hzero
  · rfl
  · rw [FsDirent.name_put_of_ne blk d hne (h.named e' he' hzero).2]

/-- Writing a new name into a free entry adds it to the map. -/
theorem DirBlockOk.put_make (h : DirBlockOk blk) (he : e < direntPerBlock)
    (hfree : FsDirent.inode blk e = 0) (hnew : dirMap blk nm = none) (hino : 0 < ino)
    (hlt : ino < 256) (hlen : 1 ≤ nm.length) (hmax : nm.length ≤ fsNameMax) (type : ℕ) :
    DirBlockOk (FsDirent.put blk e (FsDirent.make ino type nm)) ∧
      dirMap (FsDirent.put blk e (FsDirent.make ino type nm)) =
        Function.update (dirMap blk) nm (some ino) := by
  set d := FsDirent.make ino type nm with hd
  have hinode : FsDirent.inode (FsDirent.put blk e d) e = ino :=
    FsDirent.inode_put_make he (by omega)
  have hslot : dirSlot (FsDirent.put blk e d) e = some (nm, ino) :=
    dirSlot_eq_some.2 ⟨by omega, hinode, FsDirent.name_put_make he hmax⟩
  obtain ⟨hdistinct, hmap⟩ := slotLookup_fill h.distinct he (dirSlot_of_eq hfree) hnew hslot
    fun e' he' hne ↦ h.dirSlot_put d he' hne
  refine ⟨⟨hdistinct, fun e' he' hne ↦ ?_, fun e' he' hne ↦ ?_⟩, hmap⟩
  · by_cases hsame : e' = e
    · rw [hsame, hinode]
      exact hlt
    · rw [FsDirent.inode_put_of_ne blk d hsame] at hne ⊢
      exact h.small e' he' hne
  · by_cases hsame : e' = e
    · rw [hsame, FsDirent.namelen_put_make he hmax]
      exact ⟨hlen, hmax⟩
    · rw [FsDirent.inode_put_of_ne blk d hsame] at hne
      rw [FsDirent.namelen_put_of_ne blk d hsame]
      exact h.named e' he' hne

/-- Zeroing the entry of a name removes it from the map. -/
theorem DirBlockOk.put_zero (h : DirBlockOk blk) (he : e < direntPerBlock)
    (hslot : dirSlot blk e = some (nm, ino)) :
    DirBlockOk (FsDirent.put blk e (Buf.zero 32)) ∧
      dirMap (FsDirent.put blk e (Buf.zero 32)) = Function.update (dirMap blk) nm none := by
  have hinode : FsDirent.inode (FsDirent.put blk e (Buf.zero 32)) e = 0 := by
    rw [FsDirent.inode_put_same _ _ he, Buf.load_zero]
  obtain ⟨hdistinct, hmap⟩ := slotLookup_clear h.distinct he hslot (dirSlot_of_eq hinode)
    fun e' he' hne ↦ h.dirSlot_put _ he' hne
  refine ⟨⟨hdistinct, fun e' he' hne ↦ ?_, fun e' he' hne ↦ ?_⟩, hmap⟩
  · have hsame : e' ≠ e := by
      rintro rfl
      exact hne hinode
    rw [FsDirent.inode_put_of_ne _ _ hsame] at hne ⊢
    exact h.small e' he' hne
  · have hsame : e' ≠ e := by
      rintro rfl
      exact hne hinode
    rw [FsDirent.inode_put_of_ne _ _ hsame] at hne
    rw [FsDirent.namelen_put_of_ne _ _ hsame]
    exact h.named e' he' hne

end Block

/-! ### The root directory of a session -/

/-- The directory block; a directory without a block is an empty one. -/
def rootBlk (s : FsState) : Block :=
  if (rootLoad s).block 0 = 0 then Buf.zero 512 else s.cluster 1

/-- The root directory on a mounted disk with superblock `sb`: it has no block and cluster 1 is
free, or its only block is cluster 1. -/
structure RootOk (sb : Block) (s : FsState) : Prop where
  sb_eq : s.sb = sb
  geom : Geom sb
  room : FsSb.dataStart sb + 1 < 2 ^ 28
  copies : ∀ lba < 2, diskReadBlock s.disk lba = sb
  mounted : s.mounted = true
  root : (rootLoad s).block 0 = 0 ∧ (rootLoad s).size = 0 ∧ bitGet s.clusterBitmap 1 = false ∨
    (rootLoad s).block 0 = 1 ∧ 0 < (rootLoad s).size ∧ 1 < s.blockCount
  rest : ∀ j, 0 < j → j < fsMaxBlocks → (rootLoad s).block j = 0
  dir : DirBlockOk (rootBlk s)

section Root

variable {sb : Block} {s : FsState} (h : RootOk sb s)

include h

theorem RootOk.geom_state : Geom s.sb := by
  rw [h.sb_eq]
  exact h.geom

theorem RootOk.cluster_one : s.dataStart + 1 < 2 ^ 28 := by
  rw [FsState.dataStart, h.sb_eq]
  exact h.room

theorem RootOk.rootLoad_eq : rootLoad s = readInode s 0 := by
  rw [rootLoad, FsState.rootInode, h.geom_state.rootInode]

/-- A scan of the root directory is a search in its block. -/
theorem RootOk.dirScan_eq_find {test : Block → ℕ → Bool}
    (hzero : (rootLoad s).block 0 = 0 → ∀ e, test (Buf.zero 512) e = false) :
    dirScan s (rootLoad s) test (List.range fsMaxBlocks) =
      ((List.range direntPerBlock).find? (test (rootBlk s))).map fun e ↦ (0, e) := by
  rcases h.root with ⟨hblk, -, -⟩ | ⟨hblk, -, hcount⟩
  · rw [dirScan_of_zero test hblk, rootBlk, if_pos hblk,
      List.find?_eq_none.mpr fun e _ ↦ by rw [hzero hblk e]; exact Bool.false_ne_true]
    rfl
  · rw [dirScan_eq test (by omega) (by omega) (h.rest 1 (by omega) (by decide)), rootBlk, if_neg (by omega), hblk]

theorem RootOk.dirFindSlot_eq (nm : CStr) : dirFindSlot s (rootLoad s) nm =
    ((List.range direntPerBlock).find? (FsDirent.isNamed nm (rootBlk s))).map fun e ↦ (0, e) := by
  refine h.dirScan_eq_find fun _ e ↦ ?_
  rw [Bool.eq_false_iff]
  intro hnamed
  exact (FsDirent.isNamed_iff.mp hnamed).1 (FsDirent.inode_zero e)

/-- An entry of the directory stands in the block of the directory. -/
theorem RootOk.dirBlock_eq {e : ℕ} (hne : FsDirent.inode (rootBlk s) e ≠ 0) :
    (rootLoad s).block 0 = 1 ∧ 1 < s.blockCount ∧ rootBlk s = s.cluster 1 ∧
      dirBlock s (rootLoad s) 0 = rootBlk s := by
  rcases h.root with ⟨hblk, -, -⟩ | ⟨hblk, -, hcount⟩
  · rw [rootBlk, if_pos hblk] at hne
    exact absurd (FsDirent.inode_zero e) hne
  · have hroot : rootBlk s = s.cluster 1 := if_neg (by omega)
    refine ⟨hblk, hcount, hroot, ?_⟩
    rw [dirBlock, hblk, hroot]
    rfl

/-- `fs_lookup` returns what the map has. -/
theorem RootOk.fsLookup_eq (nm : CStr) :
    fsLookup s nm = ((dirMap (rootBlk s) nm).map Nat.cast).getD (-1) := by
  rw [fsLookup, if_pos h.mounted, h.dirFindSlot_eq]
  rcases h.dir.find_named nm with ⟨hfind, hmap⟩ | ⟨e, he, hfind, hslot, hmap⟩
  · rw [hfind, hmap]
    rfl
  · obtain ⟨hne, -, -⟩ := dirSlot_eq_some.1 hslot
    rw [hfind, hmap]
    change toInt32 (FsDirent.inode (dirBlock s (rootLoad s) 0) e) = _
    rw [(h.dirBlock_eq hne).2.2.2]
    exact toInt32_of_lt ((h.dir.small e he hne).trans (by decide))

theorem RootOk.fsLookup_neg (nm : CStr) : fsLookup s nm < 0 ↔ dirMap (rootBlk s) nm = none := by
  rw [h.fsLookup_eq]
  rcases dirMap (rootBlk s) nm with - | i
  · exact iff_of_true (by decide) rfl
  · exact iff_of_false (not_lt.mpr (Int.natCast_nonneg i)) nofun

/-! ### Steps that keep the directory -/

/-- The RAM inode bitmap does not matter. -/
theorem RootOk.withInodes (bm : List Byte) : RootOk sb (s.withInodes bm) :=
  ⟨h.sb_eq, h.geom, h.room, h.copies, h.mounted, h.root, h.rest, h.dir⟩

/-- Of the RAM cluster bitmap only the bit of cluster 1 does, and only before the directory has its
block. -/
theorem RootOk.withClusters {bm : List Byte}
    (hbit : (rootLoad s).block 0 = 0 → bitGet bm 1 = false) : RootOk sb (s.withClusters bm) := by
  refine ⟨h.sb_eq, h.geom, h.room, h.copies, h.mounted, ?_, h.rest, h.dir⟩
  rcases h.root with ⟨hblk, hsize, -⟩ | hblk
  · exact Or.inl ⟨hblk, hsize, hbit hblk⟩
  · exact Or.inr hblk

/-- A state with the same root inode and the same cluster 1. -/
theorem RootOk.of_same {t : FsState} (hsb : t.sb = s.sb)
    (hcopies : ∀ lba < 2, diskReadBlock t.disk lba = diskReadBlock s.disk lba)
    (hmounted : t.mounted = s.mounted) (hbitmap : t.clusterBitmap = s.clusterBitmap)
    (hroot : rootLoad t = rootLoad s) (hblk : t.cluster 1 = s.cluster 1) :
    RootOk sb t ∧ rootBlk t = rootBlk s := by
  have hsame : rootBlk t = rootBlk s := by rw [rootBlk, rootBlk, hroot, hblk]
  refine ⟨⟨hsb.trans h.sb_eq, h.geom, h.room, fun lba hlba ↦ (hcopies lba hlba).trans
    (h.copies lba hlba), hmounted.trans h.mounted, ?_, ?_, ?_⟩, hsame⟩
  · rw [hroot, hbitmap, FsState.blockCount, hsb]
    exact h.root
  · rw [hroot]
    exact h.rest
  · rw [hsame]
    exact h.dir

/-- Writing the inode of a file. -/
theorem RootOk.writeFile {ino : ℕ} (hpos : 0 < ino) (hlt : ino < 256) (x : FsInode) :
    RootOk sb (writeInode s ino x) ∧ rootBlk (writeInode s ino x) = rootBlk s := by
  have hgeom := h.geom_state
  refine h.of_same rfl (fun lba hlba ↦ hgeom.readSb_writeInode x hlt hlba) rfl rfl ?_
    (hgeom.cluster_writeInode x hlt (by omega) h.cluster_one)
  change readInode (writeInode s ino x) (FsSb.rootInode s.sb) = _
  rw [hgeom.rootInode, hgeom.readInode_writeInode x hlt (by omega) (by omega), ← h.rootLoad_eq]

/-- Writing a cluster of a file. -/
theorem RootOk.setCluster {c : ℕ} (hc : 2 ≤ c) (haddr : s.dataStart + c < 2 ^ 28) (buf : Block) :
    RootOk sb (s.setCluster c buf) ∧ rootBlk (s.setCluster c buf) = rootBlk s := by
  have hgeom := h.geom_state
  refine h.of_same rfl (fun lba hlba ↦ hgeom.readSb_setCluster buf haddr hlba) rfl rfl ?_
    (cluster_setCluster_of_addressable buf haddr h.cluster_one (by omega))
  change readInode (s.setCluster c buf) (FsSb.rootInode s.sb) = _
  rw [hgeom.rootInode, hgeom.readInode_setCluster buf (by omega) haddr (by omega), ← h.rootLoad_eq]

/-- Replacing the directory block. -/
theorem RootOk.setDir (hblk : (rootLoad s).block 0 = 1) {blk : Block} (hok : DirBlockOk blk) :
    RootOk sb (s.setCluster 1 blk) ∧ rootBlk (s.setCluster 1 blk) = blk ∧
      ∀ i < 256, readInode (s.setCluster 1 blk) i = readInode s i := by
  have hgeom := h.geom_state
  have haddr := h.cluster_one
  have hinodes : ∀ i < 256, readInode (s.setCluster 1 blk) i = readInode s i := fun i hi ↦
    hgeom.readInode_setCluster blk (by omega) haddr hi
  have hroot : rootLoad (s.setCluster 1 blk) = rootLoad s := by
    change readInode (s.setCluster 1 blk) (FsSb.rootInode s.sb) = _
    rw [hgeom.rootInode, hinodes 0 (by omega), ← h.rootLoad_eq]
  have hnew : rootBlk (s.setCluster 1 blk) = blk := by
    rw [rootBlk, hroot, if_neg (by omega), cluster_setCluster_same]
  refine ⟨⟨h.sb_eq, h.geom, h.room, fun lba hlba ↦ ?_, h.mounted, ?_, ?_, ?_⟩, hnew, hinodes⟩
  · rw [hgeom.readSb_setCluster blk haddr hlba]
    exact h.copies lba hlba
  · rw [hroot]
    exact h.root
  · rw [hroot]
    exact h.rest
  · rw [hnew]
    exact hok

end Root

/-! ### Creating files -/

/-- The cluster bitmap is as it was, or the root directory has taken cluster 1. -/
def RootBit (s t : FsState) : Prop :=
  t.clusterBitmap = s.clusterBitmap ∧ (rootLoad t).block 0 = (rootLoad s).block 0 ∨
    (rootLoad s).block 0 = 0 ∧ t.clusterBitmap = bitSet s.clusterBitmap 1

section Create

variable {sb : Block} {s : FsState} {nm : CStr}

/-- The root directory gets cluster 1 as its block. -/
theorem RootOk.newRoot (h : RootOk sb s) (hblk : (rootLoad s).block 0 = 0) (hcount : 1 < s.blockCount)
    (t : FsState) (ht : t = writeInode ((s.withClusters (bitSet s.clusterBitmap 1)).setCluster 1
      (Buf.zero 512)) 0 (((rootLoad s).setBlock 0 1).setSize fsBlockSize)) :
    RootOk sb t ∧ rootLoad t = ((rootLoad s).setBlock 0 1).setSize fsBlockSize ∧
      (rootLoad t).block 0 = 1 ∧ rootBlk t = rootBlk s ∧
      ∀ i, 0 < i → i < 256 → readInode t i = readInode s i := by
  set u := s.withClusters (bitSet s.clusterBitmap 1) with hu
  set root := ((rootLoad s).setBlock 0 1).setSize fsBlockSize with hroot
  have hgeom : Geom u.sb := h.geom_state
  have haddr : u.dataStart + 1 < 2 ^ 28 := h.cluster_one
  have hload : rootLoad t = root := by
    rw [ht]
    change readInode (writeInode (u.setCluster 1 (Buf.zero 512)) 0 root) (FsSb.rootInode u.sb) = _
    rw [hgeom.rootInode, readInode_writeInode_same]
  have hone : (rootLoad t).block 0 = 1 := by
    rw [hload, hroot, FsInode.block_setSize, FsInode.block_setBlock _ (by decide), if_pos rfl]
    rfl
  have hcluster : t.cluster 1 = Buf.zero 512 := by
    rw [ht, Geom.cluster_writeInode root (s := u.setCluster 1 (Buf.zero 512)) hgeom (by omega)
      (by omega) haddr, cluster_setCluster_same]
  have hblk' : rootBlk t = rootBlk s := by
    rw [rootBlk, rootBlk, if_pos hblk, if_neg (by omega), hcluster]
  refine ⟨⟨?_, h.geom, h.room, fun lba hlba ↦ ?_, ?_, Or.inr ⟨hone, ?_, ?_⟩, ?_, ?_⟩, hload, hone,
    hblk', fun i hpos hi ↦ ?_⟩
  · rw [ht]
    exact h.sb_eq
  · rw [ht, Geom.readSb_writeInode root (s := u.setCluster 1 (Buf.zero 512)) hgeom (by omega) hlba,
      hgeom.readSb_setCluster _ haddr hlba]
    exact h.copies lba hlba
  · rw [ht]
    exact h.mounted
  · rw [hload, hroot, FsInode.size_setSize]
    decide
  · rw [ht]
    exact hcount
  · intro j hj hmax
    rw [hload, hroot, FsInode.block_setSize, FsInode.block_setBlock _ (by decide),
      if_neg (by omega)]
    exact h.rest j hj hmax
  · rw [hblk']
    exact h.dir
  · rw [ht, Geom.readInode_writeInode root (s := u.setCluster 1 (Buf.zero 512)) hgeom (by omega) hi
      (by omega), hgeom.readInode_setCluster _ (by omega) haddr hi]
    rfl

/-- `root_ensure_block` fails with nothing changed, or leaves a directory with a block and the same
entries. -/
theorem RootOk.ensure (h : RootOk sb s) :
    rootEnsureBlock s (rootLoad s) = (none, s) ∨
      ∃ t, rootEnsureBlock s (rootLoad s) = (some (rootLoad t), t) ∧ RootOk sb t ∧
        (rootLoad t).block 0 = 1 ∧ rootBlk t = rootBlk s ∧ RootBit s t ∧
        t.inodeBitmap = s.inodeBitmap ∧ ∀ i, 0 < i → i < 256 → readInode t i = readInode s i := by
  rcases h.root with ⟨hblk, hsize, hbit⟩ | ⟨hblk, hsize, hcount⟩
  · by_cases hcount : 1 < s.blockCount
    · have halloc : fsAllocCluster s =
          some (1, s.withClusters (bitSet s.clusterBitmap 1)) := by
        rw [fsAllocCluster, if_pos h.mounted, firstClear_of_clear hcount hbit]
        rfl
      obtain ⟨hok, hload, hone, hsame, hinodes⟩ := h.newRoot hblk hcount _ rfl
      refine Or.inr ⟨_, ?_, hok, hone, hsame, Or.inr ⟨hblk, rfl⟩, rfl, hinodes⟩
      rw [hload, rootEnsureBlock, if_neg (by omega), halloc]
      dsimp only
      rw [fsClusterWrite_of_lt (s := s.withClusters (bitSet s.clusterBitmap 1)) hcount]
      change (some _, writeInode _ (FsSb.rootInode s.sb) _) = _
      rw [h.geom_state.rootInode]
    · refine Or.inl ?_
      have hnone : fsAllocCluster s = none := by
        rw [fsAllocCluster, if_pos h.mounted, firstClear,
          Nat.sub_eq_zero_of_le (not_lt.mp hcount)]
        rfl
      rw [rootEnsureBlock, if_neg (by omega), hnone]
  · exact Or.inr ⟨s, by rw [rootEnsureBlock, if_pos hsize], h, hblk, rfl, Or.inl ⟨rfl, rfl⟩, rfl,
      fun _ _ _ ↦ rfl⟩

/-- What `dir_add_entry` does: nothing to the map, or it adds the name. -/
structure AddEffect (sb : Block) (s : FsState) (nm : CStr) (ino : ℕ) (ok : Bool) (t : FsState) :
    Prop where
  inv : RootOk sb t
  added : ok = true → 1 ≤ nm.length ∧ nm.length ≤ fsNameMax ∧
    dirMap (rootBlk t) = Function.update (dirMap (rootBlk s)) nm (some ino)
  failed : ok = false → dirMap (rootBlk t) = dirMap (rootBlk s)
  bit : RootBit s t
  inodes : ∀ i, 0 < i → i < 256 → readInode t i = readInode s i

theorem RootOk.addEntry (h : RootOk sb s) {ino : ℕ} (hpos : 0 < ino) (hlt : ino < 256)
    (hnew : dirMap (rootBlk s) nm = none) (type : ℕ) :
    AddEffect sb s nm ino (dirAddEntry s nm ino type).1 (dirAddEntry s nm ino type).2 := by
  rw [dirAddEntry]
  split_ifs with hlen
  · exact ⟨h, by rintro ⟨⟩, fun _ ↦ rfl, Or.inl ⟨rfl, rfl⟩, fun _ _ _ ↦ rfl⟩
  rw [not_or] at hlen
  rcases h.ensure with hfail | ⟨t, hensure, hok, hblk, hsame, hbit, -, hinodes⟩
  · rw [hfail]
    exact ⟨h, by rintro ⟨⟩, fun _ ↦ rfl, Or.inl ⟨rfl, rfl⟩, fun _ _ _ ↦ rfl⟩
  · rw [hensure]
    dsimp only
    rw [hok.dirScan_eq_find fun hzero ↦ absurd hzero (by omega)]
    rcases hfind : (List.range direntPerBlock).find? (FsDirent.isFree (rootBlk t)) with - | e
    · exact ⟨hok, by rintro ⟨⟩, fun _ ↦ congrArg dirMap hsame, hbit, hinodes⟩
    · have he := List.mem_range.mp (List.mem_of_find?_eq_some hfind)
      have hfree : FsDirent.inode (rootBlk t) e = 0 := by
        simpa [FsDirent.isFree] using List.find?_some hfind
      have hdirBlock : dirBlock t (rootLoad t) 0 = rootBlk t := by
        rw [dirBlock, hblk, rootBlk, if_neg (by omega)]
        rfl
      have hcount : 1 < t.blockCount := by
        rcases hok.root with ⟨hzero, -, -⟩ | ⟨-, -, hcount⟩
        · omega
        · exact hcount
      obtain ⟨hblkOk, hmap⟩ := hok.dir.put_make he hfree (by rw [hsame]; exact hnew) hpos hlt
        (by omega) (by omega) type
      obtain ⟨hok', hblk', hinodes'⟩ := hok.setDir hblk hblkOk
      rw [Option.map_some]
      dsimp only
      rw [hblk, fsClusterWrite_of_lt hcount, hdirBlock]
      refine ⟨hok', fun _ ↦ ⟨by omega, by omega, ?_⟩, by rintro ⟨⟩, ?_, fun i hpos hi ↦ ?_⟩
      · rw [hblk', hmap, hsame]
      · have hroot : rootLoad (t.setCluster 1 (FsDirent.put (rootBlk t) e
            (FsDirent.make ino type nm))) = rootLoad t := by
          rw [hok'.rootLoad_eq, hinodes' 0 (by omega), ← hok.rootLoad_eq]
        rw [RootBit, hroot]
        exact hbit
      · rw [hinodes' i hi, hinodes i hpos hi]

/-- What `fs_create` does: nothing to the map, or it adds the name with a fresh inode. -/
structure CreateEffect (sb : Block) (s : FsState) (nm : CStr) (x : FsInode) (r : ℤ) (t : FsState) :
    Prop where
  inv : RootOk sb t
  created : 0 ≤ r → dirMap (rootBlk s) nm = none ∧ 1 ≤ nm.length ∧ nm.length ≤ fsNameMax ∧
    dirMap (rootBlk t) = Function.update (dirMap (rootBlk s)) nm (some r.toNat) ∧
    0 < r.toNat ∧ r.toNat < 256 ∧ readInode t r.toNat = x
  failed : r < 0 → r = -1 ∧ dirMap (rootBlk t) = dirMap (rootBlk s)
  bit : RootBit s t
  inodes : ∀ i, 0 < i → i < 256 → readInode t i = readInode s i ∨ readInode t i = x

theorem CreateEffect.of_unchanged (h : RootOk sb s) (x : FsInode) :
    CreateEffect sb s nm x (-1) s where
  inv := h
  created := nofun
  failed _ := ⟨rfl, rfl⟩
  bit := Or.inl ⟨rfl, rfl⟩
  inodes _ _ _ := Or.inl rfl

/-- The inode of a new file, before it has a directory entry. -/
theorem RootOk.newFile (h : RootOk sb s) {ino : ℕ} (hpos : 0 < ino) (hlt : ino < 256)
    (bm : List Byte) (x : FsInode) :
    RootOk sb (writeInode (s.withInodes bm) ino x) ∧
      rootBlk (writeInode (s.withInodes bm) ino x) = rootBlk s ∧
      rootLoad (writeInode (s.withInodes bm) ino x) = rootLoad s ∧
      ∀ k < 256, readInode (writeInode (s.withInodes bm) ino x) k =
        if k = ino then x else readInode s k := by
  obtain ⟨hok, hsame⟩ := (h.withInodes bm).writeFile hpos hlt x
  have hread : ∀ k < 256, readInode (writeInode (s.withInodes bm) ino x) k =
      if k = ino then x else readInode s k := by
    intro k hk
    split_ifs with hki
    · rw [hki, readInode_writeInode_same]
    · exact Geom.readInode_writeInode x (s := s.withInodes bm) h.geom_state hlt hk hki
  refine ⟨hok, hsame, ?_, hread⟩
  rw [hok.rootLoad_eq, hread 0 (by omega), if_neg (by omega), h.rootLoad_eq]

theorem RootOk.create (h : RootOk sb s) (nm : CStr) (mode ticks : ℕ) :
    CreateEffect sb s nm (newInode mode ticks) (fsCreate s nm mode ticks).1
      (fsCreate s nm mode ticks).2 := by
  have hmounted : ¬ (!s.mounted) = true := by rw [h.mounted]; decide
  by_cases hexists : fsLookup s nm ≥ 0
  · rw [fsCreate, if_neg hmounted, if_pos hexists]
    exact CreateEffect.of_unchanged h _
  have hnew : dirMap (rootBlk s) nm = none := (h.fsLookup_neg nm).mp (not_le.mp hexists)
  rcases halloc : fsAllocInode s with - | ⟨ino, s₁⟩
  · rw [fsCreate, if_neg hmounted, if_neg hexists, halloc]
    exact CreateEffect.of_unchanged h _
  obtain ⟨i, hfirst, heq⟩ := Option.map_eq_some_iff.mp halloc
  obtain ⟨rfl, rfl⟩ := Prod.mk.injEq .. ▸ heq
  obtain ⟨hpos, hlt, -⟩ := firstClear_eq_some hfirst
  rw [FsState.inodeCount, h.geom_state.inodeCount] at hlt
  obtain ⟨hok, hsame, hroot, hread⟩ := h.newFile hpos hlt (bitSet s.inodeBitmap i)
    (newInode mode ticks)
  set u := writeInode (s.withInodes (bitSet s.inodeBitmap i)) i (newInode mode ticks) with hu
  have habsent : dirMap (rootBlk u) nm = none := by rw [hsame]; exact hnew
  have heffect := hok.addEntry hpos hlt habsent (if mode = fsInodeDir then 2 else 1)
  rcases hadd : dirAddEntry u nm i (if mode = fsInodeDir then 2 else 1) with ⟨ok, t⟩
  have hcreate : fsCreate s nm mode ticks = (if ok then (i : ℤ) else -1, t) := by
    rw [fsCreate, if_neg hmounted, if_neg hexists, halloc]
    dsimp only
    rw [← FsState.withInodes, ← hu, hadd]
    cases ok <;> rfl
  rw [hcreate]
  rw [hadd] at heffect
  have hbit : RootBit s t := by
    have hbit' := heffect.bit
    rw [RootBit, hroot] at hbit'
    exact hbit'
  have hinodes : ∀ k, 0 < k → k < 256 →
      readInode t k = readInode s k ∨ readInode t k = newInode mode ticks := by
    intro k hk hk'
    rw [heffect.inodes k hk hk', hread k hk']
    split_ifs
    · exact Or.inr rfl
    · exact Or.inl rfl
  cases ok with
  | false =>
    exact ⟨heffect.inv, by rintro ⟨⟩, fun _ ↦ ⟨rfl, by rw [heffect.failed rfl, hsame]⟩, hbit, hinodes⟩
  | true =>
    obtain ⟨hlen, hmax, hmap⟩ := heffect.added rfl
    refine ⟨heffect.inv, fun _ ↦ ⟨hnew, hlen, hmax, ?_, hpos, hlt, ?_⟩,
      fun hneg ↦ absurd hneg (not_lt.mpr (Int.natCast_nonneg i)), hbit, hinodes⟩
    · rw [hmap, hsame]
      rfl
    · change readInode t i = _
      rw [heffect.inodes i hpos hlt, hread i hlt, if_pos rfl]

end Create

/-! ### Removing files -/

section Unlink

variable {sb : Block} {s : FsState} {nm : CStr}

/-- `fs_unlink` frees clusters in the RAM bitmap only. -/
theorem freeAll_eq_withClusters (s : FsState) (x : FsInode) : ∃ bm, freeAll s x = s.withClusters bm ∧
    ∀ k, (bitGet bm k = true → bitGet s.clusterBitmap k = true) ∧
      ((∀ j < fsMaxBlocks, x.block j ≠ k) → bitGet bm k = bitGet s.clusterBitmap k) := by
  have hclr : ∀ (b : List Byte) (c k : ℕ), (bitGet (bitClr b c) k = true → bitGet b k = true) ∧
      (c ≠ k → bitGet (bitClr b c) k = bitGet b k) := by
    intro b c k
    by_cases hc : c < bitLen b
    · rw [bitGet_bitClr hc]
      exact ⟨fun hbit ↦ (Bool.and_eq_true_iff.mp hbit).2, fun hne ↦ by
        rw [decide_eq_false (Ne.symm hne)]; rfl⟩
    · rw [bitClr_of_le (not_lt.mp hc)]
      exact ⟨id, fun _ ↦ rfl⟩
  have hloop : ∀ js : List ℕ, (∀ j ∈ js, j < fsMaxBlocks) → ∃ bm,
      js.foldl (fun s j ↦ if x.block j ≠ 0 then fsFreeCluster s (x.block j) else s) s =
        s.withClusters bm ∧
      ∀ k, (bitGet bm k = true → bitGet s.clusterBitmap k = true) ∧
        ((∀ j < fsMaxBlocks, x.block j ≠ k) → bitGet bm k = bitGet s.clusterBitmap k) := by
    intro js hjs
    induction js using List.reverseRecOn with
    | nil => exact ⟨s.clusterBitmap, rfl, fun k ↦ ⟨id, fun _ ↦ rfl⟩⟩
    | append_singleton js j ih =>
      obtain ⟨bm, hfold, hbits⟩ := ih fun j' hj' ↦ hjs j' (List.mem_append_left _ hj')
      rw [List.foldl_append, hfold, List.foldl_cons, List.foldl_nil, fsFreeCluster]
      split_ifs
      · refine ⟨bitClr bm (x.block j), rfl, fun k ↦ ⟨fun hbit ↦ ?_, fun hne ↦ ?_⟩⟩
        · exact (hbits k).1 ((hclr bm _ k).1 hbit)
        · rw [(hclr bm _ k).2 (hne j (hjs j (List.mem_append_right _ (List.mem_singleton_self j))))]
          exact (hbits k).2 hne
      · exact ⟨bm, rfl, hbits⟩
      · exact ⟨bm, rfl, hbits⟩
  exact hloop (List.range fsMaxBlocks) fun j hj ↦ List.mem_range.mp hj

/-- What `fs_unlink` does: it fails exactly on a name the map does not have, else removes it. -/
structure UnlinkEffect (sb : Block) (s : FsState) (nm : CStr) (ok : Bool) (t : FsState) : Prop where
  inv : RootOk sb t
  failed : ok = false → t = s ∧ dirMap (rootBlk s) nm = none
  removed : ok = true → dirMap (rootBlk s) nm ≠ none ∧
    dirMap (rootBlk t) = Function.update (dirMap (rootBlk s)) nm none
  root : rootLoad t = rootLoad s
  bit : (∀ ino, dirMap (rootBlk s) nm = some ino → ∀ j < fsMaxBlocks,
    (readInode s ino).block j ≠ 1) → bitGet t.clusterBitmap 1 = bitGet s.clusterBitmap 1
  inodes : ∀ i, 0 < i → i < 256 → readInode t i = readInode s i ∨ readInode t i = FsInode.zero

theorem RootOk.unlink (h : RootOk sb s) (nm : CStr) :
    UnlinkEffect sb s nm (fsUnlink s nm).1 (fsUnlink s nm).2 := by
  rw [fsUnlink, if_neg (by rw [h.mounted]; decide)]
  dsimp only
  rw [h.fsLookup_eq nm, h.dirFindSlot_eq nm]
  rcases h.dir.find_named nm with ⟨hfind, hmap⟩ | ⟨e, he, hfind, hslot, hmap⟩
  · rw [hmap, if_pos (by decide)]
    exact ⟨h, fun _ ↦ ⟨rfl, hmap⟩, by rintro ⟨⟩, rfl, fun _ ↦ rfl, fun _ _ _ ↦ Or.inl rfl⟩
  · obtain ⟨hne, -, -⟩ := dirSlot_eq_some.1 hslot
    obtain ⟨hpos, hlt, -, -⟩ := h.dir.of_map hmap
    obtain ⟨hblk, hcount, hroot, -⟩ := h.dirBlock_eq hne
    set ino := FsDirent.inode (rootBlk s) e with hino
    rw [hmap, hfind, if_neg (by change ((ino : ℤ)) ≠ -1; omega)]
    have hcast : ((((some ino).map Nat.cast).getD (-1) : ℤ) % 2 ^ 32).toNat = ino := by
      change (((ino : ℤ)) % 2 ^ 32).toNat = ino
      omega
    rw [hcast]
    obtain ⟨bm, hfree, hbits⟩ := freeAll_eq_withClusters s (readInode s ino)
    -- the states before and after the inode is zeroed
    have hok₁ : RootOk sb (s.withClusters bm) := h.withClusters fun hzero ↦ by omega
    obtain ⟨hok₂, hsame₂⟩ := hok₁.writeFile hpos hlt FsInode.zero
    set u := (writeInode (s.withClusters bm) ino FsInode.zero).withInodes
      (bitClr s.inodeBitmap ino) with hu
    have hok₃ : RootOk sb u := hok₂.withInodes _
    have hinodes : ∀ i < 256, i ≠ ino → readInode u i = readInode s i := fun i hi hne ↦
      Geom.readInode_writeInode _ (s := s.withClusters bm) h.geom_state hlt hi hne
    have hload : rootLoad u = rootLoad s := by
      rw [hok₃.rootLoad_eq, hinodes 0 (by omega) (by omega), h.rootLoad_eq]
    have hdirBlock : dirBlock u (rootLoad s) 0 = rootBlk s := by
      have hsame : rootBlk u = rootBlk s := hsame₂
      rw [← hsame, rootBlk, hload, if_neg (by omega), dirBlock, hblk]
      rfl
    obtain ⟨hblkOk, hmap'⟩ := h.dir.put_zero he hslot
    obtain ⟨hok₄, hblk₄, hinodes₄⟩ := hok₃.setDir (hload ▸ hblk) hblkOk
    have hwrite : (fsClusterWrite u ((rootLoad s).block 0)
        (FsDirent.put (dirBlock u (rootLoad s) 0) e (Buf.zero 32))).getD u =
        u.setCluster 1 (FsDirent.put (rootBlk s) e (Buf.zero 32)) := by
      rw [hdirBlock, hblk, fsClusterWrite_of_lt (s := u) hcount, Option.getD_some]
    change UnlinkEffect sb s nm true ((fsClusterWrite ((writeInode (freeAll s (readInode s ino)) ino
      FsInode.zero).withInodes (bitClr (freeAll s (readInode s ino)).inodeBitmap ino))
        ((rootLoad s).block 0) (FsDirent.put (dirBlock ((writeInode (freeAll s (readInode s ino)) ino
          FsInode.zero).withInodes (bitClr (freeAll s (readInode s ino)).inodeBitmap ino))
          (rootLoad s) 0) e (Buf.zero 32))).getD _)
    rw [hfree]
    refine hwrite ▸ ⟨hok₄, by rintro ⟨⟩, fun _ ↦ ⟨by rw [hmap]; rintro ⟨⟩, ?_⟩, ?_, fun hfiles ↦ ?_,
      fun i hpos hi ↦ ?_⟩
    · rw [hblk₄, hmap']
    · rw [hok₄.rootLoad_eq, hinodes₄ 0 (by omega), ← hok₃.rootLoad_eq, hload]
    · exact (hbits 1).2 fun j hj ↦ hfiles ino hmap j hj
    · rw [hinodes₄ i hi]
      by_cases hii : i = ino
      · rw [hii]
        exact Or.inr (readInode_writeInode_same _ (s.withClusters bm) ino)
      · exact Or.inl (hinodes i hi hii)

end Unlink

/-! ### The first mount -/

/-- The superblock `fs_format` writes. -/
def formattedSb (d : Drive) : Block :=
  FsSb.setSeq (formatSb (fsGeometry (fsUsableBlocks d)))
    (FsSb.seq (formatSb (fsGeometry (fsUsableBlocks d))) + 1)

theorem geom_formattedSb (d : Drive) :
    Geom (formattedSb d) ∧ FsSb.dataStart (formattedSb d) + 1 < 2 ^ 28 := geom_formatSb d _

theorem valid_formattedSb (d : Drive) : FsSb.valid (formattedSb d) = true :=
  (formatSb_fields _ _).1

theorem bitmap_formattedSb (d : Drive) : FsSb.bitmapStart (formattedSb d) = 2 ∧
    FsSb.bitmapBlocks (formattedSb d) = (fsGeometry (fsUsableBlocks d)).bitmapBlocks ∧
    FsSb.inodeStart (formattedSb d) = 2 + FsSb.bitmapBlocks (formattedSb d) := by
  have hle := fsGeometry_bitmapBlocks_le d
  obtain ⟨-, -, hstart, hbitmap, hinode, -, -, -⟩ :=
    formatSb_fields (fsGeometry (fsUsableBlocks d))
      (FsSb.seq (formatSb (fsGeometry (fsUsableBlocks d))) + 1)
  rw [Nat.mod_eq_of_lt (by omega)] at hbitmap hinode
  refine ⟨hstart, hbitmap, ?_⟩
  rw [formattedSb, hinode, hbitmap]

section Fresh

variable {kmalloc kmalloc' : ℕ → Bool} {d : Drive} {s₀ : FsState}
  (hformat : (fsFormat kmalloc d s₀).1 = true)

include hformat

/-- `fs_format` on a drive of any capacity: two copies of the superblock, a root directory without
a block, and a clear bitmap. -/
theorem fsFormat_any : (fsFormat kmalloc d s₀).2.sb = formattedSb d ∧
    (∀ lba < 2, diskReadBlock (fsFormat kmalloc d s₀).2.disk lba = formattedSb d) ∧
    readInode (fsFormat kmalloc d s₀).2 0 = formatRoot ∧
    bitGet (fsFormat kmalloc d s₀).2.diskBitmap 1 = false := by
  rw [fsFormat] at hformat ⊢
  split_ifs at hformat ⊢ with hbitmap hinode
  dsimp only
  set g := fsGeometry (fsUsableBlocks d) with hg
  set t : FsState := { s₀ with
    sb := formatSb g
    disk := diskWriteBlocks (FsSb.inodeStart (formatSb g)) (fun _ ↦ Buf.zero 512) g.inodeBlocks
      (diskWriteBlocks 2 (fun _ ↦ Buf.zero 512) g.bitmapBlocks s₀.disk) } with ht
  obtain ⟨hcopies, hroot, hothers⟩ := sbWriteAll_spec (t := t) (geom_formatSb d _).1
  refine ⟨rfl, hcopies, hroot, ?_⟩
  obtain ⟨hstart, hblocks, hinodeStart⟩ := bitmap_formattedSb d
  rw [← hg] at hblocks
  have hdisk : (sbWriteAll (writeInode t 0 formatRoot)).diskBitmap =
      loadBitmap (sbWriteAll (writeInode t 0 formatRoot)).disk (FsSb.bitmapStart (formattedSb d))
        (FsSb.bitmapBlocks (formattedSb d)) := rfl
  change bitGet (sbWriteAll (writeInode t 0 formatRoot)).diskBitmap 1 = false
  rw [hdisk, hstart]
  by_cases hsome : 0 < FsSb.bitmapBlocks (formattedSb d)
  · -- the first bitmap block was zeroed, and nothing was written over it
    have hinode : t.inodeStart = FsSb.inodeStart (formattedSb d) :=
      (Buf.load_store_of_disjoint _ _ _ _ _ _ (by omega)).symm
    have hle : g.bitmapBlocks ≤ 2 ^ 16 := fsGeometry_bitmapBlocks_le d
    have hinodeBlocks : g.inodeBlocks = 36 := rfl
    have hblock : diskReadBlock (sbWriteAll (writeInode t 0 formatRoot)).disk 2 =
        Buf.zero 512 := by
      rw [hothers 2 (le_refl 2) (by omega), ht]
      have hraw : FsSb.inodeStart (formatSb g) = t.inodeStart := rfl
      dsimp only
      rw [hraw, diskRead_writeBlocks _ _ _ (by rw [hinodeBlocks]; omega) (by omega),
        if_neg (by omega), diskRead_writeBlocks _ _ _ (by omega) (by omega), if_pos (by omega)]
    rw [bitGet, List.getD_eq_getElem?_getD, getElem?_loadBitmap _ _ (by omega), hblock,
      Buf.get_zero]
    rfl
  · refine bitGet_of_le ?_
    rw [bitLen, length_loadBitmap, Nat.eq_zero_of_not_pos hsome]
    omega

variable (hmount : (fsMount kmalloc' (fsFormat kmalloc d s₀).2).1 = true)

include hmount

/-- The session that starts on a freshly formatted and mounted disk has an empty root directory. -/
theorem RootOk.fresh : RootOk (formattedSb d) (freshSession kmalloc kmalloc' d s₀).fs ∧
    (rootLoad (freshSession kmalloc kmalloc' d s₀).fs).block 0 = 0 := by
  obtain ⟨hsb, hcopies, hroot, hbit⟩ := fsFormat_any hformat
  have hread := readAnySb_of_copies hcopies (valid_formattedSb d)
  set t := (fsFormat kmalloc d s₀).2 with ht
  have hfs : (freshSession kmalloc kmalloc' d s₀).fs = mountedState t := by
    change (fsMount kmalloc' t).2 = _
    rw [fsMount_of_readAnySb hread hmount, ← hsb]
  have hload : rootLoad (mountedState t) = formatRoot := by
    change readInode t (FsSb.rootInode t.sb) = _
    rw [hsb, (geom_formattedSb d).1.rootInode, hroot]
  have hblk : ∀ j, (rootLoad (mountedState t)).block j = 0 := fun j ↦ by
    rw [hload, block_formatRoot]
  rw [hfs]
  refine ⟨⟨hsb, (geom_formattedSb d).1, (geom_formattedSb d).2, hcopies, rfl, Or.inl ⟨hblk 0, ?_, ?_⟩,
    fun j _ _ ↦ hblk j, ?_⟩, hblk 0⟩
  · rw [hload, size_formatRoot]
  · rw [clusterBitmap_mountedState]
    exact hbit
  · rw [rootBlk, if_pos (hblk 0)]
    exact DirBlockOk.zero

end Fresh

/-! ### The directory refines a map -/

/-- The calls on the root directory. -/
inductive DirOp
  | create (nm : CStr) (mode ticks : ℕ)
  | lookup (nm : CStr)
  | unlink (nm : CStr)

/-- One call: the value it returns, and the state it leaves. -/
def dirStep (s : FsState) : DirOp → ℤ × FsState
  | .create nm mode ticks => fsCreate s nm mode ticks
  | .lookup nm => (fsLookup s nm, s)
  | .unlink nm => (if (fsUnlink s nm).1 then 0 else -1, (fsUnlink s nm).2)

/-- What the calls are on a map from names to inode numbers: a file is created under a name that is
not there, or not at all; a name is looked up; a name that is there is removed. -/
def MapStep (M : CStr → Option ℕ) : DirOp → ℤ → (CStr → Option ℕ) → Prop
  | .create nm _ _, r, M' =>
    0 ≤ r ∧ M nm = none ∧ M' = Function.update M nm (some r.toNat) ∨ r = -1 ∧ M' = M
  | .lookup nm, r, M' => r = ((M nm).map Nat.cast).getD (-1) ∧ M' = M
  | .unlink nm, r, M' =>
    r = 0 ∧ M nm ≠ none ∧ M' = Function.update M nm none ∨ r = -1 ∧ M nm = none ∧ M' = M

/-- A finite map whose names have 1 to 24 bytes. -/
structure NameMap (M : CStr → Option ℕ) : Prop where
  names : ∀ nm, M nm ≠ none → 1 ≤ nm.length ∧ nm.length ≤ fsNameMax
  finite : Set.Finite {nm | M nm ≠ none}

theorem DirBlockOk.nameMap {blk : Block} (h : DirBlockOk blk) : NameMap (dirMap blk) where
  names nm hne := by
    obtain ⟨ino, hmap⟩ := Option.ne_none_iff_exists'.mp hne
    exact (h.of_map hmap).2.2
  finite := by
    refine ((Finset.range direntPerBlock).image (FsDirent.name blk)).finite_toSet.subset ?_
    intro nm hne
    obtain ⟨ino, hmap⟩ := Option.ne_none_iff_exists'.mp hne
    obtain ⟨e, he, hslot⟩ := (slotLookup_eq_some h.distinct).mp hmap
    rw [Finset.coe_image]
    exact ⟨e, Finset.mem_coe.mpr (Finset.mem_range.mpr he), (dirSlot_eq_some.1 hslot).2.2⟩

/-- One call is a call on the map. -/
theorem RootOk.mapStep {sb : Block} {s : FsState} (h : RootOk sb s) (op : DirOp) :
    MapStep (dirMap (rootBlk s)) op (dirStep s op).1 (dirMap (rootBlk (dirStep s op).2)) ∧
      RootOk sb (dirStep s op).2 := by
  cases op with
  | create nm mode ticks =>
    have heffect := h.create nm mode ticks
    refine ⟨?_, heffect.inv⟩
    rcases lt_or_ge (fsCreate s nm mode ticks).1 0 with hneg | hnonneg
    · exact Or.inr (heffect.failed hneg)
    · obtain ⟨hnew, -, -, hmap, -⟩ := heffect.created hnonneg
      exact Or.inl ⟨hnonneg, hnew, hmap⟩
  | lookup nm => exact ⟨⟨h.fsLookup_eq nm, rfl⟩, h⟩
  | unlink nm =>
    have heffect := h.unlink nm
    refine ⟨?_, heffect.inv⟩
    rw [dirStep]
    rcases hok : (fsUnlink s nm).1 with - | -
    · obtain ⟨hsame, hnone⟩ := heffect.failed hok
      exact Or.inr ⟨rfl, hnone, by rw [hsame]⟩
    · exact Or.inl ⟨rfl, heffect.removed hok⟩

/-- Every sequence of calls on the root directory of a freshly formatted and mounted disk returns
what a map from names to inode numbers returns, starting from the empty map; the names of the map
have 1 to 24 bytes, and looking a name up in the state reached gives what the map has. -/
theorem root_refines_map {kmalloc kmalloc' : ℕ → Bool} {d : Drive} {s₀ : FsState}
    (hformat : (fsFormat kmalloc d s₀).1 = true)
    (hmount : (fsMount kmalloc' (fsFormat kmalloc d s₀).2).1 = true) (ops : List DirOp) :
    ∃ M, Explains MapStep (fun _ ↦ none) ops
        (results dirStep (freshSession kmalloc kmalloc' d s₀).fs ops).1 M ∧ NameMap M ∧
      ∀ nm, fsLookup (results dirStep (freshSession kmalloc kmalloc' d s₀).fs ops).2 nm =
        ((M nm).map Nat.cast).getD (-1) := by
  obtain ⟨hok, hblk⟩ := RootOk.fresh hformat hmount
  have hempty : dirMap (rootBlk (freshSession kmalloc kmalloc' d s₀).fs) = fun _ ↦ none := by
    ext1 nm
    rw [rootBlk, if_pos hblk, dirMap_zero]
  have hsim : ∀ s M op, RootOk (formattedSb d) s ∧ M = dirMap (rootBlk s) →
      ∃ M', MapStep M op (dirStep s op).1 M' ∧
        RootOk (formattedSb d) (dirStep s op).2 ∧ M' = dirMap (rootBlk (dirStep s op).2) := by
    rintro s _ op ⟨hok, rfl⟩
    exact ⟨_, (hok.mapStep op).1, (hok.mapStep op).2, rfl⟩
  obtain ⟨M, hexplains, hok', rfl⟩ := Explains.of_simulation
    (fun s M ↦ RootOk (formattedSb d) s ∧ M = dirMap (rootBlk s)) hsim ops ⟨hok, hempty.symm⟩
  exact ⟨_, hexplains, hok'.dir.nameMap, hok'.fsLookup_eq⟩

/-- Creating `a` twice, looking it up, removing it and looking it up again. -/
theorem root_refines_map_one_name :
    (results dirStep smallSession.fs [.create [0x61] fsInodeReg 0, .create [0x61] fsInodeReg 0,
      .lookup [0x61], .unlink [0x61], .lookup [0x61]]).1 = [1, -1, 1, 0, -1] ∧
    ∃ M, Explains MapStep (fun _ ↦ none) [.create [0x61] fsInodeReg 0, .create [0x61] fsInodeReg 0,
        .lookup [0x61], .unlink [0x61], .lookup [0x61]]
        (results dirStep smallSession.fs [.create [0x61] fsInodeReg 0, .create [0x61] fsInodeReg 0,
          .lookup [0x61], .unlink [0x61], .lookup [0x61]]).1 M ∧ NameMap M ∧
      ∀ nm, fsLookup (results dirStep smallSession.fs [.create [0x61] fsInodeReg 0,
        .create [0x61] fsInodeReg 0, .lookup [0x61], .unlink [0x61], .lookup [0x61]]).2 nm =
          ((M nm).map Nat.cast).getD (-1) :=
  ⟨by decide +kernel, root_refines_map (by decide +kernel) (by decide +kernel) _⟩

end NoOsKernel.Fs
