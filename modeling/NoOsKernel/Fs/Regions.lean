import NoOsKernel.Fs.DirMap

/-!
# What files can touch

The blocks of files are clusters from 2 on: cluster 1 belongs to the root directory from the moment
the first file is created, and the allocator never returns cluster 0, where the last four inodes of
the table lie. `FilesOk` states this for a drive on which the file system fits below the swap tail,
whether or not its bitmap has a bit for every cluster, and `fs_create`, `fs_write_file` and
`fs_unlink` keep it.
-/

set_option autoImplicit false
set_option relaxedAutoImplicit false

namespace NoOsKernel.Fs

open Lib

/-- The blocks of a file are clusters from 2 to `count - 1`. -/
def FileOk (count : ℕ) (x : FsInode) : Prop :=
  ∀ j < fsMaxBlocks, x.block j ≠ 0 → 2 ≤ x.block j ∧ x.block j < count

theorem FileOk.of_zero {count : ℕ} {x : FsInode} (h : ∀ j, x.block j = 0) : FileOk count x :=
  fun j _ hne ↦ absurd (h j) hne

/-- The files of a mounted disk. -/
structure FilesOk (s : FsState) : Prop where
  fits : s.dataStart + s.blockCount ≤ 2 ^ 28
  len : (rootLoad s).block 0 = 0 → 1 < bitLen s.clusterBitmap
  bit : (rootLoad s).block 0 = 1 → bitGet s.clusterBitmap 1 = true
  files : ∀ nm ino, dirMap (rootBlk s) nm = some ino → FileOk s.blockCount (readInode s ino)

section Directory

variable {sb : Block} {s : FsState}

/-- A directory with an entry has a block. -/
theorem RootOk.block_of_map (h : RootOk sb s) {nm : CStr} {ino : ℕ}
    (hmap : dirMap (rootBlk s) nm = some ino) : (rootLoad s).block 0 = 1 ∧ 1 < s.blockCount := by
  rcases h.root with ⟨hblk, -, -⟩ | ⟨hblk, -, hcount⟩
  · rw [rootBlk, if_pos hblk, dirMap_zero] at hmap
    cases hmap
  · exact ⟨hblk, hcount⟩

theorem RootOk.blockCount_eq {t : FsState} (h : RootOk sb s) (h' : RootOk sb t) :
    t.blockCount = s.blockCount ∧ t.dataStart = s.dataStart := by
  have hsb : t.sb = s.sb := h'.sb_eq.trans h.sb_eq.symm
  unfold FsState.blockCount FsState.dataStart
  rw [hsb]
  exact ⟨rfl, rfl⟩

/-- `fs_create` keeps the files. -/
theorem FilesOk.create (h : RootOk sb s) (hfiles : FilesOk s) (nm : CStr) (mode ticks : ℕ) :
    FilesOk (fsCreate s nm mode ticks).2 := by
  have heffect := h.create nm mode ticks
  set t := (fsCreate s nm mode ticks).2 with ht
  obtain ⟨hcount, hdata⟩ := h.blockCount_eq heffect.inv
  have hone : (rootLoad t).block 0 = 0 ∨ (rootLoad t).block 0 = 1 := by
    rcases heffect.inv.root with ⟨hblk, -⟩ | ⟨hblk, -⟩
    · exact Or.inl hblk
    · exact Or.inr hblk
  refine ⟨?_, fun hzero ↦ ?_, fun hblk ↦ ?_, fun nm' ino hmap ↦ ?_⟩
  · rw [hcount, hdata]
    exact hfiles.fits
  · rcases heffect.bit with ⟨hbm, hroot⟩ | ⟨hroot, hbm⟩
    · rw [hbm]
      exact hfiles.len (hroot ▸ hzero)
    · rw [hbm, bitLen, length_bitSet]
      exact hfiles.len hroot
  · rcases heffect.bit with ⟨hbm, hroot⟩ | ⟨hroot, hbm⟩
    · rw [hbm]
      exact hfiles.bit (hroot ▸ hblk)
    · rw [hbm, bitGet_bitSet (hfiles.len hroot)]
      rfl
  · have hnew : FileOk s.blockCount (newInode mode ticks) := FileOk.of_zero (block_newInode mode ticks)
    obtain ⟨hpos, hlt, -, -⟩ := heffect.inv.dir.of_map hmap
    rw [hcount]
    have hold : dirMap (rootBlk s) nm' = some ino → FileOk s.blockCount (readInode t ino) := by
      intro hmap'
      rcases heffect.inodes ino hpos hlt with hsame | hsame
      · rw [hsame]
        exact hfiles.files nm' ino hmap'
      · rw [hsame]
        exact hnew
    rcases lt_or_ge (fsCreate s nm mode ticks).1 0 with hneg | hnonneg
    · rw [(heffect.failed hneg).2] at hmap
      exact hold hmap
    · obtain ⟨-, -, -, hupdate, -, -, hread⟩ := heffect.created hnonneg
      rw [hupdate] at hmap
      by_cases hnm : nm' = nm
      · rw [hnm, Function.update_self, Option.some.injEq] at hmap
        rw [← hmap, hread]
        exact hnew
      · rw [Function.update_of_ne hnm] at hmap
        exact hold hmap

/-- `fs_unlink` keeps the files. -/
theorem FilesOk.unlink (h : RootOk sb s) (hfiles : FilesOk s) (nm : CStr) :
    FilesOk (fsUnlink s nm).2 := by
  have heffect := h.unlink nm
  rcases hok : (fsUnlink s nm).1 with - | -
  · rw [(heffect.failed hok).1]
    exact hfiles
  obtain ⟨hfound, hremoved⟩ := heffect.removed hok
  obtain ⟨gone, hgone⟩ := Option.ne_none_iff_exists'.mp hfound
  obtain ⟨hblk, -⟩ := h.block_of_map hgone
  set t := (fsUnlink s nm).2 with ht
  obtain ⟨hcount, hdata⟩ := h.blockCount_eq heffect.inv
  refine ⟨?_, fun hzero ↦ ?_, fun _ ↦ ?_, fun nm' ino hmap ↦ ?_⟩
  · rw [hcount, hdata]
    exact hfiles.fits
  · rw [heffect.root, hblk] at hzero
    cases hzero
  · rw [heffect.bit fun ino hino j hj hone ↦ ?_]
    · exact hfiles.bit hblk
    · have htwo := (hfiles.files nm ino hino j hj (by omega)).1
      omega
  · obtain ⟨hpos, hlt, -, -⟩ := heffect.inv.dir.of_map hmap
    rw [hcount]
    rcases heffect.inodes ino hpos hlt with hsame | hsame
    · rw [hremoved] at hmap
      by_cases hnm : nm' = nm
      · rw [hnm, Function.update_self] at hmap
        cases hmap
      · rw [Function.update_of_ne hnm] at hmap
        rw [hsame]
        exact hfiles.files nm' ino hmap
    · rw [hsame]
      exact FileOk.of_zero FsInode.block_zero

end Directory

/-! ### Writing file data -/

/-- A step that changes the cluster bitmap and the clusters of files only. -/
structure DataStep (sb : Block) (s t : FsState) : Prop where
  inv : RootOk sb t
  files : FilesOk t
  blk : rootBlk t = rootBlk s
  inodes : ∀ i < 256, readInode t i = readInode s i

section Data

variable {sb : Block} {s t : FsState}

theorem DataStep.refl (h : RootOk sb s) (hfiles : FilesOk s) : DataStep sb s s :=
  ⟨h, hfiles, rfl, fun _ _ ↦ rfl⟩

theorem DataStep.trans {u : FsState} (h : DataStep sb s t) (h' : DataStep sb t u) :
    DataStep sb s u where
  inv := h'.inv
  files := h'.files
  blk := h'.blk.trans h.blk
  inodes i hi := (h'.inodes i hi).trans (h.inodes i hi)

theorem DataStep.root_eq (h : RootOk sb s) (hstep : DataStep sb s t) :
    rootLoad t = rootLoad s := by
  rw [hstep.inv.rootLoad_eq, hstep.inodes 0 (by omega), h.rootLoad_eq]

/-- The files, when nothing but data clusters and their bits changed. -/
theorem FilesOk.of_same (h : RootOk sb s) (hfiles : FilesOk s) (ht : RootOk sb t)
    (hblk : rootBlk t = rootBlk s) (hinodes : ∀ i < 256, readInode t i = readInode s i)
    (hone : (rootLoad s).block 0 = 1) (hbit : bitGet t.clusterBitmap 1 = true) : FilesOk t := by
  obtain ⟨hcount, hdata⟩ := h.blockCount_eq ht
  have hroot : rootLoad t = rootLoad s := by
    rw [ht.rootLoad_eq, hinodes 0 (by omega), h.rootLoad_eq]
  refine ⟨?_, fun hzero ↦ ?_, fun _ ↦ hbit, fun nm ino hmap ↦ ?_⟩
  · rw [hcount, hdata]
    exact hfiles.fits
  · rw [hroot, hone] at hzero
    cases hzero
  · rw [hblk] at hmap
    rw [hcount, hinodes ino (h.dir.of_map hmap).2.1]
    exact hfiles.files nm ino hmap

variable (h : RootOk sb s) (hfiles : FilesOk s) (hone : (rootLoad s).block 0 = 1)

include h hfiles hone

/-- Another cluster bitmap, with the bit of the directory. -/
theorem DataStep.bitmap {bm : List Byte} (hbit : bitGet bm 1 = true) :
    DataStep sb s (s.withClusters bm) := by
  have hok : RootOk sb (s.withClusters bm) := h.withClusters fun hzero ↦ by omega
  exact ⟨hok, hfiles.of_same h hok rfl (fun _ _ ↦ rfl) hone hbit, rfl, fun _ _ ↦ rfl⟩

/-- Another block in the cluster of a file. -/
theorem DataStep.cluster {c : ℕ} (hc : 2 ≤ c) (hlt : c < s.blockCount) (buf : Block) :
    DataStep sb s (s.setCluster c buf) := by
  have haddr : s.dataStart + c < 2 ^ 28 := by
    have := hfiles.fits
    omega
  obtain ⟨hok, hblk⟩ := h.setCluster hc haddr buf
  have hinodes : ∀ i < 256, readInode (s.setCluster c buf) i = readInode s i := fun i hi ↦
    h.geom_state.readInode_setCluster buf (by omega) haddr hi
  exact ⟨hok, hfiles.of_same h hok hblk hinodes hone (hfiles.bit hone), hblk, hinodes⟩

/-- `fs_alloc_cluster` returns a cluster from 2 on. -/
theorem DataStep.alloc {c : ℕ} (halloc : fsAllocCluster s = some (c, t)) :
    2 ≤ c ∧ c < s.blockCount ∧ DataStep sb s t := by
  obtain ⟨hfirst, rfl⟩ := fsAllocCluster_eq_some h.mounted halloc
  obtain ⟨hpos, hlt, hclear⟩ := firstClear_eq_some hfirst
  have hset := hfiles.bit hone
  have hne : c ≠ 1 := by
    rintro rfl
    rw [hset] at hclear
    cases hclear
  refine ⟨by omega, hlt, DataStep.bitmap h hfiles hone ?_⟩
  by_cases hlen : c < bitLen s.clusterBitmap
  · rw [bitGet_bitSet hlen, hset, Bool.or_true]
  · rw [bitSet_of_le (not_lt.mp hlen), hset]

/-- `fs_free_cluster` of another cluster than the directory's. -/
theorem DataStep.free {c : ℕ} (hc : c ≠ 1) : DataStep sb s (fsFreeCluster s c) := by
  rw [fsFreeCluster]
  split_ifs
  · refine DataStep.bitmap h hfiles hone ?_
    have hset := hfiles.bit hone
    by_cases hlen : c < bitLen s.clusterBitmap
    · rw [bitGet_bitClr hlen, decide_eq_false (Ne.symm hc), hset]
      rfl
    · rw [bitClr_of_le (not_lt.mp hlen), hset]
  · exact DataStep.refl h hfiles

end Data

section Write

variable {sb : Block} {s : FsState} {x : FsInode}

theorem FileOk.setBlock {count : ℕ} (hx : FileOk count x) {j v : ℕ} (hj : j < fsMaxBlocks)
    (hv : v ≠ 0 → 2 ≤ v ∧ v < count) (hsmall : v < 2 ^ 32) : FileOk count (x.setBlock j v) := by
  intro k hk hne
  rw [FsInode.block_setBlock x hj] at hne ⊢
  split_ifs at hne ⊢ with hkj
  · rw [Nat.mod_eq_of_lt hsmall] at hne ⊢
    exact hv hne
  · exact hx k hk hne

/-- The first loop of `fs_write_file`. -/
theorem DataStep.freeBlocks (h : RootOk sb s) (hfiles : FilesOk s)
    (hone : (rootLoad s).block 0 = 1) (hx : FileOk s.blockCount x) (js : List ℕ)
    (hjs : ∀ j ∈ js, j < fsMaxBlocks) :
    DataStep sb s (freeBlocks js s x).1 ∧ FileOk s.blockCount (freeBlocks js s x).2 := by
  induction js generalizing s x with
  | nil => exact ⟨DataStep.refl h hfiles, hx⟩
  | cons j rest ih =>
    have hj := hjs j (List.mem_cons_self ..)
    have hrest : ∀ j ∈ rest, j < fsMaxBlocks := fun k hk ↦ hjs k (List.mem_cons_of_mem _ hk)
    rw [Fs.freeBlocks]
    split_ifs with hne
    · have hstep := DataStep.free h hfiles hone (c := x.block j) (by have := (hx j hj hne).1; omega)
      obtain ⟨hcount, -⟩ := h.blockCount_eq hstep.inv
      have hx' : FileOk (fsFreeCluster s (x.block j)).blockCount (x.setBlock j 0) := by
        rw [hcount]
        exact hx.setBlock hj (fun hz ↦ absurd rfl hz) (by decide)
      obtain ⟨hstep', hx''⟩ := ih hstep.inv hstep.files (by rw [hstep.root_eq h]; exact hone) hx'
        hrest
      rw [hcount] at hx''
      exact ⟨hstep.trans hstep', hx''⟩
    · exact ih h hfiles hone hx hrest

/-- One round of the second loop of `fs_write_file`. -/
theorem DataStep.writeSlot (h : RootOk sb s) (hfiles : FilesOk s)
    (hone : (rootLoad s).block 0 = 1) (hx : FileOk s.blockCount x) {j : ℕ} (hj : j < fsMaxBlocks)
    (data : ℕ → Byte) (size : ℕ) :
    DataStep sb s (writeSlot data size j s x).2 ∧
      ∀ y, (writeSlot data size j s x).1 = some y → FileOk s.blockCount y := by
  have hwrite : ∀ {t : FsState} {y : FsInode}, DataStep sb s t → FileOk s.blockCount y →
      y.block j ≠ 0 → ∃ u, fsClusterWrite t (y.block j) (fileBlock data size j) = some u ∧
        DataStep sb s u := by
    intro t y hstep hy hne
    obtain ⟨htwo, hlt⟩ := hy j hj hne
    obtain ⟨hcount, -⟩ := h.blockCount_eq hstep.inv
    rw [← hcount] at hlt
    exact ⟨_, fsClusterWrite_of_lt hlt _, hstep.trans (DataStep.cluster hstep.inv hstep.files
      (by rw [hstep.root_eq h]; exact hone) htwo hlt _)⟩
  rw [Fs.writeSlot]
  by_cases hzero : x.block j = 0
  · rw [if_pos hzero]
    rcases halloc : fsAllocCluster s with - | ⟨c, t⟩
    · exact ⟨DataStep.refl h hfiles, fun _ hy ↦ by cases hy⟩
    · obtain ⟨htwo, hlt, hstep⟩ := DataStep.alloc h hfiles hone halloc
      have hsmall : c < 2 ^ 32 := by
        have := hfiles.fits
        omega
      have hy : FileOk s.blockCount (x.setBlock j c) := hx.setBlock hj (fun _ ↦ ⟨htwo, hlt⟩) hsmall
      have hblock : (x.setBlock j c).block j = c := by
        rw [FsInode.block_setBlock x hj, if_pos rfl, Nat.mod_eq_of_lt hsmall]
      obtain ⟨u, hu, hstep'⟩ := hwrite hstep hy (by omega)
      simp only [Option.map_some, hu]
      refine ⟨hstep', fun y hy' ↦ ?_⟩
      rw [Option.some.injEq] at hy'
      rw [← hy']
      exact hy
  · rw [if_neg hzero]
    obtain ⟨u, hu, hstep⟩ := hwrite (DataStep.refl h hfiles) hx hzero
    simp only [hu]
    refine ⟨hstep, fun y hy ↦ ?_⟩
    rw [Option.some.injEq] at hy
    rw [← hy]
    exact hx

/-- The second loop of `fs_write_file`. -/
theorem DataStep.writeBlocks (h : RootOk sb s) (hfiles : FilesOk s)
    (hone : (rootLoad s).block 0 = 1) (hx : FileOk s.blockCount x) (data : ℕ → Byte) (size : ℕ)
    (js : List ℕ) (hjs : ∀ j ∈ js, j < fsMaxBlocks) :
    DataStep sb s (writeBlocks data size js s x).2 ∧
      ∀ y, (writeBlocks data size js s x).1 = some y → FileOk s.blockCount y := by
  induction js generalizing s x with
  | nil =>
    refine ⟨DataStep.refl h hfiles, fun y hy ↦ ?_⟩
    rw [Fs.writeBlocks, Option.some.injEq] at hy
    rw [← hy]
    exact hx
  | cons j rest ih =>
    obtain ⟨hstep, hslot⟩ := DataStep.writeSlot h hfiles hone hx (hjs j (List.mem_cons_self ..))
      data size
    rw [Fs.writeBlocks]
    rcases hround : Fs.writeSlot data size j s x with ⟨- | y, t⟩
    · rw [hround] at hstep
      exact ⟨hstep, fun _ hy ↦ by cases hy⟩
    · rw [hround] at hstep hslot
      obtain ⟨hcount, -⟩ := h.blockCount_eq hstep.inv
      have hy : FileOk t.blockCount y := by
        rw [hcount]
        exact hslot y rfl
      obtain ⟨hstep', hrest⟩ := ih hstep.inv hstep.files
        (by rw [hstep.root_eq h]; exact hone) hy fun k hk ↦ hjs k (List.mem_cons_of_mem _ hk)
      rw [hcount] at hrest
      exact ⟨hstep.trans hstep', hrest⟩

/-- Storing the inode of a file. -/
theorem FilesOk.writeInode (h : RootOk sb s) (hfiles : FilesOk s) {ino : ℕ} (hpos : 0 < ino)
    (hlt : ino < 256) (hx : FileOk s.blockCount x) :
    RootOk sb (writeInode s ino x) ∧ FilesOk (Fs.writeInode s ino x) ∧
      rootBlk (Fs.writeInode s ino x) = rootBlk s := by
  obtain ⟨hok, hblk⟩ := h.writeFile hpos hlt x
  have hread : ∀ k < 256, readInode (Fs.writeInode s ino x) k =
      if k = ino then x else readInode s k := by
    intro k hk
    split_ifs with hki
    · rw [hki, readInode_writeInode_same]
    · exact h.geom_state.readInode_writeInode x hlt hk hki
  have hroot : rootLoad (Fs.writeInode s ino x) = rootLoad s := by
    rw [hok.rootLoad_eq, hread 0 (by omega), if_neg (by omega), h.rootLoad_eq]
  refine ⟨hok, ⟨hfiles.fits, ?_, ?_, fun nm i hmap ↦ ?_⟩, hblk⟩
  · rw [hroot]
    exact hfiles.len
  · rw [hroot]
    exact hfiles.bit
  · rw [hblk] at hmap
    rw [hread i (h.dir.of_map hmap).2.1]
    split_ifs
    · exact hx
    · exact hfiles.files nm i hmap

/-- `fs_write_file` on the inode of a file keeps the directory and the files. -/
theorem FilesOk.write (h : RootOk sb s) (hfiles : FilesOk s) {nm : CStr} {ino : ℕ}
    (hmap : dirMap (rootBlk s) nm = some ino) (data : ℕ → Byte) (size ticks : ℕ) :
    RootOk sb (fsWriteFile s ino data size ticks).2 ∧
      FilesOk (fsWriteFile s ino data size ticks).2 ∧
      rootBlk (fsWriteFile s ino data size ticks).2 = rootBlk s := by
  obtain ⟨hone, -⟩ := h.block_of_map hmap
  obtain ⟨hpos, hlt, -, -⟩ := h.dir.of_map hmap
  rw [fsWriteFile, if_neg (by rw [h.mounted]; decide)]
  by_cases hbig : fileBlocks size > fsMaxBlocks
  · rw [if_pos hbig]
    exact ⟨h, hfiles, rfl⟩
  rw [if_neg hbig]
  set n := fileBlocks size with hn
  obtain ⟨hfree, hx⟩ := DataStep.freeBlocks h hfiles hone (hfiles.files nm ino hmap)
    (List.range' n (fsMaxBlocks - n)) fun j hj ↦ by rw [List.mem_range'_1] at hj; omega
  dsimp only
  rcases hloop : Fs.freeBlocks (List.range' n (fsMaxBlocks - n)) s (readInode s ino) with ⟨t, x⟩
  rw [hloop] at hfree hx
  obtain ⟨hcount, -⟩ := h.blockCount_eq hfree.inv
  have hx' : FileOk t.blockCount x := by
    rw [hcount]
    exact hx
  obtain ⟨hstep, hslots⟩ := DataStep.writeBlocks hfree.inv hfree.files
    (by rw [hfree.root_eq h]; exact hone) hx' data size (List.range n)
    fun j hj ↦ by rw [List.mem_range] at hj; omega
  dsimp only
  rcases hwrite : Fs.writeBlocks data size (List.range n) t x with ⟨- | y, u⟩
  · rw [hwrite] at hstep
    exact ⟨hstep.inv, hstep.files, (hfree.trans hstep).blk⟩
  · rw [hwrite] at hstep hslots
    obtain ⟨hcount', -⟩ := hfree.inv.blockCount_eq hstep.inv
    have hy : FileOk u.blockCount (finishInode y size ticks) := by
      intro j hj hne
      rw [block_finishInode] at hne ⊢
      rw [hcount']
      exact hslots y rfl j hj hne
    obtain ⟨hok, hfiles', hblk⟩ := FilesOk.writeInode hstep.inv hstep.files hpos hlt hy
    exact ⟨hok, hfiles', hblk.trans (hfree.trans hstep).blk⟩

end Write

/-! ### Runs of file calls -/

/-- A file of the directory is a name of its map. -/
theorem RootOk.isFile_iff {sb : Block} {s : FsState} (h : RootOk sb s) {ino : ℕ} :
    IsFile s ino ↔ ∃ nm, dirMap (rootBlk s) nm = some ino := by
  constructor
  · rintro ⟨bi, e, ⟨hbi, he, hne⟩, rfl⟩
    rw [dirIno] at hne ⊢
    split_ifs at hne ⊢ with hblk
    · exact absurd rfl hne
    · have hzero : bi = 0 := by
        by_contra hpos
        exact hblk (h.rest bi (Nat.pos_of_ne_zero hpos) hbi)
      subst hzero
      rcases h.root with ⟨hnone, -, -⟩ | ⟨hone, -, -⟩
      · exact absurd hnone hblk
      · have hroot : rootBlk s = s.cluster 1 := if_neg hblk
        rw [hone, ← hroot] at hne ⊢
        exact ⟨_, (slotLookup_eq_some h.dir.distinct).mpr ⟨e, he, dirSlot_of_ne hne⟩⟩
  · rintro ⟨nm, hmap⟩
    obtain ⟨hone, -⟩ := h.block_of_map hmap
    obtain ⟨e, he, hslot⟩ := (slotLookup_eq_some h.dir.distinct).mp hmap
    obtain ⟨hne, hino, -⟩ := dirSlot_eq_some.1 hslot
    have hdir : dirIno s 0 e = ino := by
      rw [dirIno, if_neg (by omega), hone, ← hino, rootBlk, if_neg (by omega)]
    exact ⟨0, e, ⟨by decide, he, by rw [hdir]; exact hne⟩, hdir⟩

/-- The calls on files: `fs_create`, `fs_write_file` on a file that exists, and `fs_unlink`. -/
def FileCall (σ : Session) : FsOp → Prop
  | .create _ _ _ => True
  | .write ino _ _ _ => IsFile σ.fs ino
  | .unlink _ => True
  | _ => False

/-- The invariant of runs of file calls on a drive of any capacity. -/
def FileInv (d : Drive) (s : FsState) : Prop := RootOk (formattedSb d) s ∧ FilesOk s

theorem FileInv.step {d : Drive} {σ : Session} (h : FileInv d σ.fs) {op : FsOp}
    (hcall : FileCall σ op) : FileInv d (σ.step op).fs := by
  obtain ⟨hok, hfiles⟩ := h
  cases op with
  | create nm mode ticks => exact ⟨(hok.create nm mode ticks).inv, hfiles.create hok nm mode ticks⟩
  | write ino data size ticks =>
    obtain ⟨nm, hmap⟩ := hok.isFile_iff.mp hcall
    obtain ⟨hok', hfiles', -⟩ := hfiles.write hok hmap data size ticks
    exact ⟨hok', hfiles'⟩
  | unlink nm => exact ⟨(hok.unlink nm).inv, hfiles.unlink hok nm⟩
  | allocCluster => exact hcall.elim
  | freeCluster c => exact hcall.elim
  | sync => exact hcall.elim
  | mount kmalloc => exact hcall.elim

/-! ### Capacity -/

/-- On a drive of at least 64 sectors three quarters of the disk are below the swap tail. -/
theorem fsUsableBlocks_eq {d : Drive} (hd : 64 ≤ d.sectors) :
    fsUsableBlocks d = d.sectors - d.sectors / 4 := by
  have hle := d.sectors_le
  rw [fsUsableBlocks, if_neg (by omega), swapStart, if_neg (by omega),
    wrapSub_of_le (by omega) (by omega)]

/-- The two passes of the size computation, without wrapping. -/
theorem two_passes {total b₀ b : ℕ} (htotal : 48 ≤ total)
    (hb₀ : b₀ = (total + 8 * 512 - 1) / (8 * 512))
    (hb : b = (total - (2 + b₀ + 36) + 8 * 512 - 1) / (8 * 512)) :
    0 < b ∧ b ≤ b₀ ∧ 38 + b₀ + 1 < total := by
  omega

/-- On a drive of at least 64 sectors the data area ends where the swap tail starts. -/
theorem formattedSb_fits {d : Drive} (hd : 64 ≤ d.sectors) :
    0 < FsSb.bitmapBlocks (formattedSb d) ∧
      FsSb.dataStart (formattedSb d) = 38 + FsSb.bitmapBlocks (formattedSb d) ∧
      FsSb.dataStart (formattedSb d) + FsSb.blockCount (formattedSb d) = fsUsableBlocks d ∧
      FsSb.dataStart (formattedSb d) + 1 < fsUsableBlocks d := by
  have hle := d.sectors_le
  have husable := fsUsableBlocks_eq hd
  have hlow : 48 ≤ fsUsableBlocks d := by omega
  have hhigh : fsUsableBlocks d < 2 ^ 28 := by omega
  obtain ⟨b₀, b, hb₀, hb, hbitmap, -, hdata, hcount⟩ := fsGeometry_eq (fsUsableBlocks d)
  obtain ⟨-, hblocks, -, hbitmapBlocks, -, -, hdataStart, -⟩ :=
    formatSb_fields (fsGeometry (fsUsableBlocks d))
      (FsSb.seq (formatSb (fsGeometry (fsUsableBlocks d))) + 1)
  rw [hbitmap] at hbitmapBlocks
  rw [hdata] at hdataStart
  rw [hcount] at hblocks
  clear husable hle hd hbitmap hdata hcount
  rw [formattedSb, hbitmapBlocks, hdataStart, hblocks]
  clear hbitmapBlocks hdataStart hblocks
  generalize fsUsableBlocks d = total at *
  have hroom : 2 + b₀ + 36 ≤ total := by
    rw [Nat.mod_eq_of_lt (by omega)] at hb₀
    omega
  rw [wrapSub_of_le hroom (by omega), Nat.mod_eq_of_lt (by omega)] at hb
  rw [Nat.mod_eq_of_lt (by omega)] at hb₀
  obtain ⟨hpos, hsecond, hfirst⟩ := two_passes hlow hb₀ hb
  rw [Nat.mod_eq_of_lt (by omega : b < 2 ^ 64), Nat.mod_eq_of_lt (by omega : 2 + b + 36 < 2 ^ 64),
    wrapSub_of_le (by omega) (by omega), Nat.mod_eq_of_lt (by omega)]
  exact ⟨hpos, by omega, Nat.add_sub_cancel' (by omega), by omega⟩

/-- A live inode owns clusters from 1 on: the root owns cluster 1, files the clusters from 2 on. -/
theorem FileInv.block_bounds {d : Drive} {s : FsState} (h : FileInv d s) {i j : ℕ}
    (hlive : LiveInode s i) (hj : j < fsMaxBlocks) (hne : (readInode s i).block j ≠ 0) :
    1 ≤ (readInode s i).block j ∧ (readInode s i).block j < s.blockCount := by
  obtain ⟨hok, hfiles⟩ := h
  rcases hlive with rfl | hfile
  · have hroot : s.rootInode = 0 := hok.geom_state.rootInode
    rw [hroot, ← hok.rootLoad_eq] at hne ⊢
    by_cases hfirst : j = 0
    · rcases hok.root with ⟨hzero, -, -⟩ | ⟨hone, -, hlt⟩
      · rw [hfirst] at hne
        exact absurd hzero hne
      · rw [hfirst, hone]
        exact ⟨le_refl _, hlt⟩
    · exact absurd (hok.rest j (Nat.pos_of_ne_zero hfirst) hj) hne
  · obtain ⟨nm, hmap⟩ := hok.isFile_iff.mp hfile
    obtain ⟨htwo, hlt⟩ := hfiles.files nm i hmap j hj hne
    exact ⟨by omega, hlt⟩

/-- The invariant of file calls is about the sectors below the swap tail. -/
theorem FileInv.of_reads {d : Drive} {s : FsState} (h : FileInv d s) (hd : 64 ≤ d.sectors)
    {disk : ℕ → Block}
    (hreads : ∀ lba < fsUsableBlocks d, diskReadBlock disk lba = diskReadBlock s.disk lba) :
    FileInv d { s with disk := disk } := by
  obtain ⟨hok, hfiles⟩ := h
  obtain ⟨-, -, -, htail⟩ := formattedSb_fits hd
  have husable := fsUsableBlocks_eq hd
  set t : FsState := { s with disk := disk } with ht
  have hdata : s.dataStart + 1 < fsUsableBlocks d := by
    rw [FsState.dataStart, hok.sb_eq]
    exact htail
  have hinodes : ∀ i < 256, readInode t i = readInode s i := by
    intro i hi
    have hlba := hok.geom_state.inodeLba_bounds hi
    change (diskReadBlock disk (inodeLba s i)).slice 72 _ = _
    rw [hreads _ (by omega)]
    rfl
  have hroot : rootLoad t = rootLoad s := by
    change readInode t (FsSb.rootInode s.sb) = _
    rw [hok.geom_state.rootInode, hinodes 0 (by omega), ← hok.rootLoad_eq]
  obtain ⟨hok', hblk⟩ := hok.of_same (t := t) rfl (fun lba hlba ↦ hreads lba (by omega)) rfl rfl
    hroot (hreads _ hdata)
  refine ⟨hok', hfiles.fits, fun hzero ↦ hfiles.len (hroot ▸ hzero),
    fun hone ↦ hfiles.bit (hroot ▸ hone), fun nm ino hmap ↦ ?_⟩
  rw [hblk] at hmap
  rw [hinodes ino (hok.dir.of_map hmap).2.1]
  exact hfiles.files nm ino hmap

section Fresh

variable {kmalloc kmalloc' : ℕ → Bool} {d : Drive} {s₀ : FsState} (hd : 64 ≤ d.sectors)
  (hformat : (fsFormat kmalloc d s₀).1 = true)
  (hmount : (fsMount kmalloc' (fsFormat kmalloc d s₀).2).1 = true)

include hd hformat hmount

theorem FileInv.fresh : FileInv d (freshSession kmalloc kmalloc' d s₀).fs := by
  obtain ⟨hok, hblk⟩ := RootOk.fresh hformat hmount
  obtain ⟨hsb, hcopies, -, -⟩ := fsFormat_any hformat
  obtain ⟨hbitmap, -, hfits, -⟩ := formattedSb_fits hd
  have husable := fsUsableBlocks_eq hd
  have hle := d.sectors_le
  refine ⟨hok, ?_, fun _ ↦ ?_, fun hone ↦ ?_, fun nm ino hmap ↦ ?_⟩
  · rw [FsState.dataStart, FsState.blockCount, hok.sb_eq]
    omega
  · have hfs : (freshSession kmalloc kmalloc' d s₀).fs = mountedState (fsFormat kmalloc d s₀).2 := by
      change (fsMount kmalloc' _).2 = _
      rw [fsMount_of_readAnySb (readAnySb_of_copies hcopies (valid_formattedSb d)) hmount, ← hsb]
    rw [hfs, clusterBitmap_mountedState, bitLen, FsState.diskBitmap, length_loadBitmap,
      FsState.bitmapBlocks, hsb]
    omega
  · rw [hblk] at hone
    cases hone
  · rw [rootBlk, if_pos hblk, dirMap_zero] at hmap
    cases hmap

/-- The invariant in every state a run of file calls reaches. -/
theorem FileInv.run {σ : Session}
    (hrun : Run Session.step FileCall (freshSession kmalloc kmalloc' d s₀) σ) : FileInv d σ.fs :=
  hrun.invariant (fun σ ↦ FileInv d σ.fs) (FileInv.fresh hd hformat hmount)
    fun _ _ h hcall ↦ h.step hcall

end Fresh

end NoOsKernel.Fs
