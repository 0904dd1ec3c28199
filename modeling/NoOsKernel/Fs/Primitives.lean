import NoOsKernel.Fs.NoosFs

/-!
# What the block primitives change

Frame laws of `write_inode`, `fs_cluster_write` and `fs_sync_bitmap`. On a superblock with the
geometry `fs_format` produces (`SbOk`), the two superblock copies, the bitmap blocks, the inode
table and the clusters from 1 on occupy different sectors, so that a write to one of them is seen by
reads of the same object only. The last inode-table block is cluster 0 (255 / 7 rounds up where the
table size rounds down), which is why the laws about clusters need a positive cluster number.
-/

set_option autoImplicit false
set_option relaxedAutoImplicit false

namespace NoOsKernel.Fs

open Lib

/-- The geometry of a formatted disk whose clusters all have a bitmap bit. -/
structure SbOk (sb : Block) : Prop where
  bitmapStart : FsSb.bitmapStart sb = 2
  inodeStart : FsSb.inodeStart sb = 2 + FsSb.bitmapBlocks sb
  dataStart : FsSb.dataStart sb = 38 + FsSb.bitmapBlocks sb
  inodeCount : FsSb.inodeCount sb = 256
  rootInode : FsSb.rootInode sb = 0
  fits : FsSb.dataStart sb + FsSb.blockCount sb < 2 ^ 28
  bits : FsSb.blockCount sb ≤ 8 * 512 * FsSb.bitmapBlocks sb

/-- The regions of a formatted disk, whatever its capacity: the two superblock copies, the inode table
and the clusters follow one another within the sectors the drive addresses. -/
structure Geom (sb : Block) : Prop where
  inodeStart : 2 ≤ FsSb.inodeStart sb
  dataStart : FsSb.dataStart sb = FsSb.inodeStart sb + 36
  addressable : FsSb.dataStart sb < 2 ^ 28
  inodeCount : FsSb.inodeCount sb = 256
  rootInode : FsSb.rootInode sb = 0

theorem SbOk.geom {sb : Block} (h : SbOk sb) : Geom sb where
  inodeStart := by rw [h.inodeStart]; omega
  dataStart := by rw [h.dataStart, h.inodeStart]; omega
  addressable := by have := h.fits; omega
  inodeCount := h.inodeCount
  rootInode := h.rootInode

/-- The block of cluster `c`. -/
def FsState.cluster (s : FsState) (c : ℕ) : Block := diskReadBlock s.disk (s.dataStart + c)

theorem SbOk.cluster_addressable {s : FsState} (h : SbOk s.sb) {c : ℕ} (hc : c < s.blockCount) :
    s.dataStart + c < 2 ^ 28 := by
  have := h.fits
  unfold FsState.blockCount at hc
  unfold FsState.dataStart
  omega

/-- The cluster bitmap stored on disk. -/
def FsState.diskBitmap (s : FsState) : List Byte :=
  loadBitmap s.disk s.bitmapStart s.bitmapBlocks

/-! ### Sectors -/

theorem ideSector_of_lt {lba : ℕ} (h : lba < 2 ^ 28) : ideSector lba = lba := by
  unfold ideSector
  omega

section Disk

variable {disk : ℕ → Block} {lba lba' : ℕ}

theorem diskRead_write_same (buf : Block) :
    diskReadBlock (diskWriteBlock disk lba buf) lba = buf := if_pos rfl

theorem diskRead_write_of_ne (buf : Block) (h : lba' < 2 ^ 28) (h' : lba < 2 ^ 28)
    (hne : lba' ≠ lba) :
    diskReadBlock (diskWriteBlock disk lba buf) lba' = diskReadBlock disk lba' := by
  unfold diskReadBlock diskWriteBlock
  rw [ideSector_of_lt h, ideSector_of_lt h', if_neg hne]

/-- The blocks after writing `n` consecutive ones. -/
theorem diskRead_writeBlocks (start n : ℕ) (buf : ℕ → Block) (hfits : start + n ≤ 2 ^ 28)
    (h : lba < 2 ^ 28) :
    diskReadBlock (diskWriteBlocks start buf n disk) lba =
      if start ≤ lba ∧ lba < start + n then buf (lba - start) else diskReadBlock disk lba := by
  induction n with
  | zero => rw [if_neg (by omega), diskWriteBlocks]
  | succ n ih =>
    rw [diskWriteBlocks]
    by_cases heq : lba = start + n
    · subst heq
      rw [diskRead_write_same, if_pos (by omega), Nat.add_sub_cancel_left]
    · rw [diskRead_write_of_ne _ h (by omega) heq, ih (by omega)]
      by_cases hin : start ≤ lba ∧ lba < start + n
      · rw [if_pos hin, if_pos (by omega)]
      · rw [if_neg hin, if_neg (by omega)]

end Disk

/-! ### Writing an inode -/

section Inode

variable {s : FsState} {ino : ℕ} (x : FsInode)

theorem Geom.inodeLba_bounds (hgeom : Geom s.sb) (hino : ino < 256) :
    s.inodeStart ≤ inodeLba s ino ∧ inodeLba s ino ≤ s.dataStart := by
  have := hgeom.dataStart
  unfold inodeLba inodesPerBlock FsState.inodeStart FsState.dataStart
  omega

theorem inodeLba_lt (hsb : SbOk s.sb) (hino : ino < 256) :
    s.inodeStart ≤ inodeLba s ino ∧ inodeLba s ino ≤ s.dataStart := hsb.geom.inodeLba_bounds hino

theorem readInode_writeInode_same (s : FsState) (ino : ℕ) :
    readInode (writeInode s ino x) ino = x := by
  have hoff : ino % inodesPerBlock * 72 + 72 ≤ 512 := by
    unfold inodesPerBlock
    omega
  unfold readInode writeInode
  change (diskReadBlock (diskWriteBlock s.disk (inodeLba s ino) _) (inodeLba s ino)).slice 72 _ = x
  rw [diskRead_write_same, Buf.slice_splice_same _ _ _ hoff]

theorem Geom.readInode_writeInode (hgeom : Geom s.sb) (hino : ino < 256) {i : ℕ} (hi : i < 256)
    (hne : i ≠ ino) : readInode (writeInode s ino x) i = readInode s i := by
  have hfits := hgeom.addressable
  have hlba := hgeom.inodeLba_bounds hino
  have hlba' := hgeom.inodeLba_bounds hi
  unfold FsState.dataStart at hlba hlba'
  unfold readInode writeInode
  change (diskReadBlock (diskWriteBlock s.disk (inodeLba s ino) _) (inodeLba s i)).slice 72 _ = _
  by_cases hsame : inodeLba s i = inodeLba s ino
  · -- the same table block, another slot of it
    rw [hsame, diskRead_write_same, Buf.slice_splice_of_disjoint]
    unfold inodeLba inodesPerBlock at hsame
    unfold inodesPerBlock
    omega
  · rw [diskRead_write_of_ne _ (by omega) (by omega) hsame]

theorem readInode_writeInode_of_ne (hsb : SbOk s.sb) (hino : ino < 256) {i : ℕ} (hi : i < 256)
    (hne : i ≠ ino) : readInode (writeInode s ino x) i = readInode s i :=
  hsb.geom.readInode_writeInode x hino hi hne

theorem Geom.cluster_writeInode (hgeom : Geom s.sb) (hino : ino < 256) {c : ℕ} (hpos : 0 < c)
    (hc : s.dataStart + c < 2 ^ 28) : (writeInode s ino x).cluster c = s.cluster c := by
  have hlba := hgeom.inodeLba_bounds hino
  change diskReadBlock (diskWriteBlock s.disk (inodeLba s ino) _) (s.dataStart + c) = _
  exact diskRead_write_of_ne _ hc (by omega) (by omega)

theorem cluster_writeInode (hsb : SbOk s.sb) (hino : ino < 256) {c : ℕ} (hpos : 0 < c)
    (hc : c < s.blockCount) : (writeInode s ino x).cluster c = s.cluster c :=
  hsb.geom.cluster_writeInode x hino hpos (hsb.cluster_addressable hc)

theorem Geom.readSb_writeInode (hgeom : Geom s.sb) (hino : ino < 256) {lba : ℕ} (hlba : lba < 2) :
    diskReadBlock (writeInode s ino x).disk lba = diskReadBlock s.disk lba := by
  have hfits := hgeom.addressable
  have hstart := hgeom.inodeStart
  have hbound := hgeom.inodeLba_bounds hino
  unfold FsState.dataStart FsState.inodeStart at hbound
  exact diskRead_write_of_ne _ (by omega) (by omega) (by omega)

theorem readSb_writeInode (hsb : SbOk s.sb) (hino : ino < 256) {lba : ℕ} (hlba : lba < 2) :
    diskReadBlock (writeInode s ino x).disk lba = diskReadBlock s.disk lba :=
  hsb.geom.readSb_writeInode x hino hlba

theorem loadBitmap_succ (disk : ℕ → Block) (start n : ℕ) :
    loadBitmap disk start (n + 1) =
      loadBitmap disk start n ++ List.ofFn (diskReadBlock disk (start + n)) := by
  simp only [loadBitmap, List.range_succ, List.flatMap_append, List.flatMap_cons,
    List.flatMap_nil, List.append_nil]

theorem loadBitmap_congr {disk disk' : ℕ → Block} {start n : ℕ}
    (h : ∀ b < n, diskReadBlock disk' (start + b) = diskReadBlock disk (start + b)) :
    loadBitmap disk' start n = loadBitmap disk start n := by
  induction n with
  | zero => simp only [loadBitmap, List.range_zero, List.flatMap_nil]
  | succ n ih =>
    rw [loadBitmap_succ, loadBitmap_succ, ih fun b hb ↦ h b (by omega), h n (by omega)]

theorem diskBitmap_writeInode (hsb : SbOk s.sb) (hino : ino < 256) :
    (writeInode s ino x).diskBitmap = s.diskBitmap := by
  have hfits := hsb.fits
  have hstart := hsb.inodeStart
  have hbitmap := hsb.bitmapStart
  have hbound := inodeLba_lt hsb hino
  unfold FsState.dataStart FsState.inodeStart at hbound
  apply loadBitmap_congr
  intro b hb
  change b < FsSb.bitmapBlocks s.sb at hb
  change diskReadBlock (diskWriteBlock s.disk (inodeLba s ino) _) (FsSb.bitmapStart s.sb + b) = _
  exact diskRead_write_of_ne _ (by omega) (by omega) (by omega)

end Inode

/-! ### Writing a cluster -/

/-- The state after `fs_cluster_write` succeeded. -/
def FsState.setCluster (s : FsState) (c : ℕ) (buf : Block) : FsState :=
  { s with disk := diskWriteBlock s.disk (s.dataStart + c) buf }

theorem fsClusterWrite_of_lt {s : FsState} {c : ℕ} (hc : c < s.blockCount) (buf : Block) :
    fsClusterWrite s c buf = some (s.setCluster c buf) := if_neg (by omega)

section Cluster

variable {s : FsState} {c : ℕ} (buf : Block)

theorem cluster_setCluster_same (s : FsState) (c : ℕ) :
    (s.setCluster c buf).cluster c = buf := diskRead_write_same buf

theorem cluster_setCluster_of_addressable (hc : s.dataStart + c < 2 ^ 28) {c' : ℕ}
    (hc' : s.dataStart + c' < 2 ^ 28) (hne : c' ≠ c) :
    (s.setCluster c buf).cluster c' = s.cluster c' := by
  change diskReadBlock (diskWriteBlock s.disk (s.dataStart + c) buf) (s.dataStart + c') = _
  exact diskRead_write_of_ne _ hc' hc (by omega)

theorem cluster_setCluster_of_ne (hsb : SbOk s.sb) (hc : c < s.blockCount) {c' : ℕ}
    (hc' : c' < s.blockCount) (hne : c' ≠ c) : (s.setCluster c buf).cluster c' = s.cluster c' :=
  cluster_setCluster_of_addressable buf (hsb.cluster_addressable hc) (hsb.cluster_addressable hc')
    hne

theorem Geom.readInode_setCluster (hgeom : Geom s.sb) (hpos : 0 < c)
    (hc : s.dataStart + c < 2 ^ 28) {i : ℕ} (hi : i < 256) :
    readInode (s.setCluster c buf) i = readInode s i := by
  have hlba := hgeom.inodeLba_bounds hi
  unfold readInode
  change (diskReadBlock (diskWriteBlock s.disk (s.dataStart + c) buf) (inodeLba s i)).slice
    72 _ = _
  rw [diskRead_write_of_ne _ (by omega) hc (by omega)]

theorem readInode_setCluster (hsb : SbOk s.sb) (hpos : 0 < c) (hc : c < s.blockCount) {i : ℕ}
    (hi : i < 256) : readInode (s.setCluster c buf) i = readInode s i :=
  hsb.geom.readInode_setCluster buf hpos (hsb.cluster_addressable hc) hi

theorem Geom.readSb_setCluster (hgeom : Geom s.sb) (hc : s.dataStart + c < 2 ^ 28) {lba : ℕ}
    (hlba : lba < 2) : diskReadBlock (s.setCluster c buf).disk lba = diskReadBlock s.disk lba := by
  have hstart := hgeom.inodeStart
  have hdata := hgeom.dataStart
  exact diskRead_write_of_ne _ (by omega) hc (by unfold FsState.dataStart; omega)

theorem readSb_setCluster (hsb : SbOk s.sb) (hc : c < s.blockCount) {lba : ℕ} (hlba : lba < 2) :
    diskReadBlock (s.setCluster c buf).disk lba = diskReadBlock s.disk lba :=
  hsb.geom.readSb_setCluster buf (hsb.cluster_addressable hc) hlba

theorem diskBitmap_setCluster (hsb : SbOk s.sb) (hc : c < s.blockCount) :
    (s.setCluster c buf).diskBitmap = s.diskBitmap := by
  have hfits := hsb.fits
  have hdata := hsb.dataStart
  have hbitmap := hsb.bitmapStart
  unfold FsState.blockCount at hc
  apply loadBitmap_congr
  intro b hb
  change b < FsSb.bitmapBlocks s.sb at hb
  change diskReadBlock (diskWriteBlock s.disk (FsSb.dataStart s.sb + c) buf)
    (FsSb.bitmapStart s.sb + b) = _
  exact diskRead_write_of_ne _ (by omega) (by omega) (by omega)

end Cluster

/-! ### Flushing the bitmap -/

section Sync

variable {s : FsState}

/-- A bitmap image has 512 bytes a block. -/
theorem length_loadBitmap (disk : ℕ → Block) (start n : ℕ) :
    (loadBitmap disk start n).length = 512 * n := by
  induction n with
  | zero => rfl
  | succ n ih =>
    rw [loadBitmap_succ, List.length_append, ih, List.length_ofFn]
    omega

/-- Byte `k` of the bitmap image is byte `k % 512` of block `k / 512`. -/
theorem getElem?_loadBitmap (disk : ℕ → Block) (start : ℕ) {n k : ℕ} (hk : k < 512 * n) :
    (loadBitmap disk start n)[k]? =
      some ((diskReadBlock disk (start + k / 512)).get (k % 512)) := by
  induction n with
  | zero => omega
  | succ n ih =>
    rw [loadBitmap_succ]
    by_cases hlow : k < 512 * n
    · rw [List.getElem?_append_left (by rw [length_loadBitmap]; exact hlow), ih hlow]
    · have hdiv : k / 512 = n := by omega
      have hmod : k - 512 * n = k % 512 := by omega
      have hlt : k % 512 < 512 := Nat.mod_lt _ (by omega)
      rw [List.getElem?_append_right (by rw [length_loadBitmap]; omega), length_loadBitmap, hdiv,
        hmod, List.getElem?_ofFn, dif_pos hlt, Buf.get_of_lt _ hlt]

theorem disk_fsSyncBitmap (hmounted : s.mounted = true) :
    (fsSyncBitmap s).disk = diskWriteBlocks (FsSb.bitmapStart s.sb)
      (bitmapBlock s.clusterBitmap) (FsSb.bitmapBlocks s.sb) s.disk := by
  simp only [fsSyncBitmap, hmounted, if_true]

/-- Reading the bitmap back after a flush. -/
theorem diskBitmap_fsSyncBitmap (hsb : SbOk s.sb) (hmounted : s.mounted = true)
    (hlen : s.clusterBitmap.length = 512 * s.bitmapBlocks) :
    (fsSyncBitmap s).diskBitmap = s.clusterBitmap := by
  have hfits := hsb.fits
  have hdata := hsb.dataStart
  have hbitmap := hsb.bitmapStart
  unfold FsState.bitmapBlocks at hlen
  have hbm : (fsSyncBitmap s).diskBitmap =
      loadBitmap (fsSyncBitmap s).disk (FsSb.bitmapStart s.sb) (FsSb.bitmapBlocks s.sb) := by
    simp only [FsState.diskBitmap, FsState.bitmapStart, FsState.bitmapBlocks, fsSyncBitmap,
      hmounted, if_true]
  rw [hbm, disk_fsSyncBitmap hmounted]
  apply List.ext_getElem?
  intro k
  by_cases hk : k < 512 * FsSb.bitmapBlocks s.sb
  · have hlba : FsSb.bitmapStart s.sb + k / 512 < 2 ^ 28 := by omega
    rw [getElem?_loadBitmap _ _ hk, diskRead_writeBlocks _ _ _ (by omega) hlba, if_pos (by omega), Nat.add_sub_cancel_left,
      Buf.get_of_lt _ (Nat.mod_lt _ (by omega))]
    change some (s.clusterBitmap.getD (k / 512 * 512 + k % 512) 0) = _
    rw [show k / 512 * 512 + k % 512 = k by omega, List.getD_eq_getElem?_getD,
      List.getElem?_eq_getElem (by omega), Option.getD_some]
  · rw [List.getElem?_eq_none (by rw [length_loadBitmap]; exact not_lt.mp hk),
      List.getElem?_eq_none (by omega)]

/-- A flush touches no block outside the bitmap. -/
theorem diskRead_fsSyncBitmap (hsb : SbOk s.sb) (lba : ℕ) (hlba : lba < 2 ^ 28)
    (hout : lba < 2 ∨ s.inodeStart ≤ lba) :
    diskReadBlock (fsSyncBitmap s).disk lba = diskReadBlock s.disk lba := by
  have hfits := hsb.fits
  have hdata := hsb.dataStart
  have hbitmap := hsb.bitmapStart
  have hinode := hsb.inodeStart
  unfold FsState.inodeStart at hout
  by_cases hmounted : s.mounted = true
  · rw [disk_fsSyncBitmap hmounted, diskRead_writeBlocks _ _ _ (by omega) hlba,
      if_neg (by omega)]
  · simp only [fsSyncBitmap, hmounted, if_false, Bool.false_eq_true]

@[simp] theorem sb_fsSyncBitmap (s : FsState) : (fsSyncBitmap s).sb = s.sb := by
  unfold fsSyncBitmap
  split_ifs <;> rfl

@[simp] theorem mounted_fsSyncBitmap (s : FsState) :
    (fsSyncBitmap s).mounted = s.mounted := by
  unfold fsSyncBitmap
  split_ifs <;> rfl

@[simp] theorem clusterBitmap_fsSyncBitmap (s : FsState) :
    (fsSyncBitmap s).clusterBitmap = s.clusterBitmap := by
  unfold fsSyncBitmap
  split_ifs <;> rfl

@[simp] theorem inodeBitmap_fsSyncBitmap (s : FsState) :
    (fsSyncBitmap s).inodeBitmap = s.inodeBitmap := by
  unfold fsSyncBitmap
  split_ifs <;> rfl

theorem readInode_fsSyncBitmap (hsb : SbOk s.sb) {i : ℕ} (hi : i < 256) :
    readInode (fsSyncBitmap s) i = readInode s i := by
  have hfits := hsb.fits
  have hlba := inodeLba_lt hsb hi
  unfold FsState.dataStart at hlba
  have hread := diskRead_fsSyncBitmap hsb (inodeLba s i) (by omega) (Or.inr hlba.1)
  simp only [readInode, inodeLba, FsState.inodeStart, sb_fsSyncBitmap] at hread ⊢
  rw [hread]

theorem cluster_fsSyncBitmap (hsb : SbOk s.sb) {c : ℕ} (hc : c < s.blockCount) :
    (fsSyncBitmap s).cluster c = s.cluster c := by
  have hfits := hsb.fits
  have hdata := hsb.dataStart
  have hinode := hsb.inodeStart
  unfold FsState.blockCount at hc
  have hread := diskRead_fsSyncBitmap hsb (FsSb.dataStart s.sb + c) (by omega)
    (Or.inr (by unfold FsState.inodeStart; omega))
  simpa only [FsState.cluster, FsState.dataStart, sb_fsSyncBitmap] using hread

end Sync

end NoOsKernel.Fs
