import NoOsKernel.Fs.Operations

/-!
# Formatting and mounting

`fs_format` on a drive whose clusters all get a bitmap bit leaves a valid superblock with the
geometry `SbOk`, an empty cluster bitmap and a root directory without a block. `fs_mount` of a disk
whose directory has no entry establishes the invariant, as long as the bitmap on disk marks the
block of the root directory; this covers both the first mount and a remount.
-/

set_option autoImplicit false
set_option relaxedAutoImplicit false

namespace NoOsKernel.Fs

open Lib

variable {s : FsState}

/-! ### Geometry -/

/-- The drives on which every cluster has a bitmap bit. -/
def BitmapCovers (d : Drive) : Prop :=
  (fsGeometry (fsUsableBlocks d)).blockCount ≤
    8 * 512 * (fsGeometry (fsUsableBlocks d)).bitmapBlocks

instance (d : Drive) : Decidable (BitmapCovers d) := by
  unfold BitmapCovers
  infer_instance

/-- A `u64` subtraction that does not wrap. -/
theorem wrapSub_of_le {a b : ℕ} (hab : b ≤ a) (ha : a < 2 ^ 64) :
    (a + 2 ^ 64 - b) % 2 ^ 64 = a - b := by
  rw [Nat.sub_add_comm hab, Nat.add_mod_right, Nat.mod_eq_of_lt (by omega)]

/-- A `u64` subtraction that wraps. -/
theorem wrapSub_of_lt {a b : ℕ} (hab : a < b) :
    (a + 2 ^ 64 - b) % 2 ^ 64 = a + 2 ^ 64 - b := Nat.mod_eq_of_lt (by omega)

/-- The space below the swap tail; on a drive of fewer than 8 sectors the subtraction wraps. -/
theorem fsUsableBlocks_bounds (d : Drive) :
    fsUsableBlocks d < 2 ^ 28 ∨ 2 ^ 64 - 8 ≤ fsUsableBlocks d ∧ fsUsableBlocks d < 2 ^ 64 := by
  have hd := d.sectors_le
  have hswap : ∀ n ≤ 2 ^ 28, swapStart n < 2 ^ 28 ∨ 2 ^ 64 - 8 ≤ swapStart n ∧
      swapStart n < 2 ^ 64 := by
    intro n hn
    unfold swapStart
    dsimp only
    split_ifs with htiny
    · rcases Nat.lt_or_ge n 8 with hlt | hge
      · rw [wrapSub_of_lt hlt]
        omega
      · rw [wrapSub_of_le hge (by omega)]
        omega
    · rw [wrapSub_of_le (by omega) (by omega)]
      omega
  unfold fsUsableBlocks
  split_ifs
  · exact hswap _ (by omega)
  · exact hswap _ hd

/-- The second pass of the size computation, in terms of the first. -/
theorem fsGeometry_eq (total : ℕ) : ∃ b₀ b,
    b₀ = (total + 8 * 512 - 1) % 2 ^ 64 / (8 * 512) ∧
      b = ((total + 2 ^ 64 - (2 + b₀ + 36)) % 2 ^ 64 + 8 * 512 - 1) % 2 ^ 64 / (8 * 512) ∧
      (fsGeometry total).bitmapBlocks = b ∧ (fsGeometry total).inodeBlocks = 36 ∧
      (fsGeometry total).dataStart = 2 + b + 36 ∧
      (fsGeometry total).blockCount = (total + 2 ^ 64 - (2 + b + 36)) % 2 ^ 64 :=
  ⟨_, _, rfl, rfl, rfl, rfl, rfl, rfl⟩

/-- The regions of a covered drive fit below its swap tail. -/
theorem fsGeometry_fits {d : Drive} (h : BitmapCovers d) :
    (fsGeometry (fsUsableBlocks d)).dataStart =
        38 + (fsGeometry (fsUsableBlocks d)).bitmapBlocks ∧
      (fsGeometry (fsUsableBlocks d)).inodeBlocks = 36 ∧
      (fsGeometry (fsUsableBlocks d)).dataStart + (fsGeometry (fsUsableBlocks d)).blockCount <
        2 ^ 28 := by
  unfold BitmapCovers at h
  obtain ⟨b₀, b, hb₀, hb, hbitmap, hinode, hdata, hcount⟩ := fsGeometry_eq (fsUsableBlocks d)
  rw [hcount, hbitmap] at h
  rw [hbitmap, hinode, hdata, hcount]
  refine ⟨by omega, rfl, ?_⟩
  rcases fsUsableBlocks_bounds d with hsmall | ⟨hlarge, hlt⟩
  · rw [Nat.mod_eq_of_lt (by omega)] at hb₀
    rcases Nat.lt_or_ge (fsUsableBlocks d) (2 + b₀ + 36) with hshort | hroom
    · -- the first pass wraps, and the second finds no bitmap block
      have hb₀le : b₀ ≤ 1 := by omega
      rw [wrapSub_of_lt hshort] at hb
      have hzero : b = 0 := by omega
      subst hzero
      rcases Nat.lt_or_ge (fsUsableBlocks d) 38 with hlt | hge
      · rw [wrapSub_of_lt hlt] at h
        omega
      · rw [wrapSub_of_le hge (by omega)]
        omega
    · rw [wrapSub_of_le hroom (by omega), Nat.mod_eq_of_lt (by omega)] at hb
      rw [wrapSub_of_le (by omega) (by omega)]
      omega
  · -- the total itself wrapped: no bitmap block for almost `2 ^ 64` clusters
    rw [Nat.mod_eq_sub_mod (by omega), Nat.mod_eq_of_lt (by omega), Nat.div_eq_of_lt (by omega)]
      at hb₀
    subst hb₀
    rw [wrapSub_of_le (by omega) hlt] at hb
    have hzero : b = 0 := by omega
    subst hzero
    rw [wrapSub_of_le (by omega) hlt] at h
    omega

/-- The bitmap of a drive of any capacity. -/
theorem fsGeometry_bitmapBlocks_le (d : Drive) :
    (fsGeometry (fsUsableBlocks d)).bitmapBlocks ≤ 2 ^ 16 := by
  obtain ⟨b₀, b, hb₀, hb, hbitmap, -, -, -⟩ := fsGeometry_eq (fsUsableBlocks d)
  rw [hbitmap]
  rcases fsUsableBlocks_bounds d with hsmall | ⟨hlarge, hlt⟩
  · rw [Nat.mod_eq_of_lt (by omega)] at hb₀
    rcases Nat.lt_or_ge (fsUsableBlocks d) (2 + b₀ + 36) with hshort | hroom
    · have hb₀le : b₀ ≤ 1 := by omega
      rw [wrapSub_of_lt hshort] at hb
      omega
    · rw [wrapSub_of_le hroom (by omega), Nat.mod_eq_of_lt (by omega)] at hb
      omega
  · rw [Nat.mod_eq_sub_mod (by omega), Nat.mod_eq_of_lt (by omega), Nat.div_eq_of_lt (by omega)]
      at hb₀
    rw [hb₀, wrapSub_of_le (by omega) hlt] at hb
    omega

/-- The superblock of a formatted disk, field by field. -/
theorem formatSb_fields (g : Geometry) (v : ℕ) :
    FsSb.valid (FsSb.setSeq (formatSb g) v) = true ∧
      FsSb.blockCount (FsSb.setSeq (formatSb g) v) = g.blockCount % 2 ^ 64 ∧
      FsSb.bitmapStart (FsSb.setSeq (formatSb g) v) = 2 ∧
      FsSb.bitmapBlocks (FsSb.setSeq (formatSb g) v) = g.bitmapBlocks % 2 ^ 64 ∧
      FsSb.inodeStart (FsSb.setSeq (formatSb g) v) = (2 + g.bitmapBlocks) % 2 ^ 64 ∧
      FsSb.inodeCount (FsSb.setSeq (formatSb g) v) = 256 ∧
      FsSb.dataStart (FsSb.setSeq (formatSb g) v) = g.dataStart % 2 ^ 64 ∧
      FsSb.rootInode (FsSb.setSeq (formatSb g) v) = 0 := by
  simp (disch := omega) only [formatSb, FsSb.setSeq, FsSb.valid, FsSb.sig, FsSb.version,
    FsSb.blockSize, FsSb.blockCount, FsSb.bitmapStart, FsSb.bitmapBlocks, FsSb.inodeStart,
    FsSb.inodeCount, FsSb.dataStart, FsSb.rootInode, Buf.load_store_of_disjoint,
    Buf.load_store_same, Buf.load_zero]
  refine ⟨by decide, rfl, rfl, rfl, rfl, rfl, rfl, trivial⟩

/-- The regions of a formatted disk of any capacity. -/
theorem geom_formatSb (d : Drive) (v : ℕ) :
    Geom (FsSb.setSeq (formatSb (fsGeometry (fsUsableBlocks d))) v) ∧
      FsSb.dataStart (FsSb.setSeq (formatSb (fsGeometry (fsUsableBlocks d))) v) + 1 < 2 ^ 28 := by
  obtain ⟨b₀, b, -, -, hbitmap, -, hdata, -⟩ := fsGeometry_eq (fsUsableBlocks d)
  have hle := fsGeometry_bitmapBlocks_le d
  obtain ⟨-, -, -, -, hinode, hcount, hdataStart, hroot⟩ :=
    formatSb_fields (fsGeometry (fsUsableBlocks d)) v
  rw [hdata] at hdataStart
  rw [hbitmap] at hinode hle
  rw [Nat.mod_eq_of_lt (by omega)] at hinode hdataStart
  exact ⟨⟨by omega, by omega, by omega, hcount, hroot⟩, by omega⟩

theorem sbOk_formatSb {d : Drive} (h : BitmapCovers d) (v : ℕ) :
    SbOk (FsSb.setSeq (formatSb (fsGeometry (fsUsableBlocks d))) v) := by
  obtain ⟨hdata, -, hfits⟩ := fsGeometry_fits h
  obtain ⟨-, hblocks, hstart, hbitmap, hinode, hcount, hdataStart, hroot⟩ :=
    formatSb_fields (fsGeometry (fsUsableBlocks d)) v
  rw [Nat.mod_eq_of_lt (by omega)] at hblocks hbitmap hinode hdataStart
  refine ⟨hstart, by rw [hinode, hbitmap], by rw [hdataStart, hbitmap, hdata], hcount, hroot, ?_, ?_⟩
  · rw [hdataStart, hblocks]
    exact hfits
  · rw [hblocks, hbitmap]
    exact h

/-! ### Formatting -/

/-- The root inode `fs_format` writes. -/
def formatRoot : FsInode := (FsInode.zero.setMode fsInodeDir).setNlinks 2

theorem size_formatRoot : formatRoot.size = 0 := by
  simp only [formatRoot, FsInode.size_setNlinks, FsInode.size_setMode, FsInode.size_zero]

theorem block_formatRoot (j : ℕ) : formatRoot.block j = 0 := by
  simp only [formatRoot, FsInode.block_setNlinks, FsInode.block_setMode, FsInode.block_zero]

/-- A disk with both superblock copies and the geometry of a covered drive. -/
structure DiskOk (s : FsState) : Prop where
  sbOk : SbOk s.sb
  valid : FsSb.valid s.sb = true
  copy0 : diskReadBlock s.disk 0 = s.sb
  copy1 : diskReadBlock s.disk 1 = s.sb

theorem FsBase.diskOk (h : FsBase s) : DiskOk s := ⟨h.sbOk, h.valid, h.copy0, h.copy1⟩

/-- `sb_write_all` after `write_inode 0`: two copies of the superblock and the root inode. -/
theorem sbWriteAll_spec {t : FsState} (hgeom : Geom (FsSb.setSeq t.sb (FsSb.seq t.sb + 1))) :
    (∀ lba < 2, diskReadBlock (sbWriteAll (writeInode t 0 formatRoot)).disk lba =
        FsSb.setSeq t.sb (FsSb.seq t.sb + 1)) ∧
      readInode (sbWriteAll (writeInode t 0 formatRoot)) 0 = formatRoot ∧
      ∀ lba, 2 ≤ lba → lba < t.inodeStart →
        diskReadBlock (sbWriteAll (writeInode t 0 formatRoot)).disk lba =
          diskReadBlock t.disk lba := by
  set sb := FsSb.setSeq t.sb (FsSb.seq t.sb + 1) with hsb
  have hdisk : (sbWriteAll (writeInode t 0 formatRoot)).disk =
      diskWriteBlock (diskWriteBlock (writeInode t 0 formatRoot).disk 1 sb) 0 sb := rfl
  have hstart : FsSb.inodeStart sb = FsSb.inodeStart t.sb :=
    Buf.load_store_of_disjoint _ _ _ _ _ _ (by omega)
  have hinode := hgeom.inodeStart
  have hdata := hgeom.dataStart
  have haddr := hgeom.addressable
  have hlba : inodeLba t 0 = FsSb.inodeStart sb := by
    rw [hstart, inodeLba, Nat.zero_div, Nat.add_zero]
  refine ⟨fun lba hlow ↦ ?_, ?_, fun lba hlow hhigh ↦ ?_⟩
  · rw [hdisk]
    by_cases hzero : lba = 0
    · rw [hzero, diskRead_write_same]
    · obtain rfl : lba = 1 := by omega
      rw [diskRead_write_of_ne _ (by omega) (by omega) (by omega), diskRead_write_same]
  · -- the table block of inode 0 is none of the two superblock copies
    have hlba' : inodeLba (sbWriteAll (writeInode t 0 formatRoot)) 0 = inodeLba t 0 := by
      change FsSb.inodeStart sb + _ = FsSb.inodeStart t.sb + _
      rw [hstart]
    rw [readInode, hlba', hdisk, diskRead_write_of_ne _ (by omega) (by omega) (by omega),
      diskRead_write_of_ne _ (by omega) (by omega) (by omega)]
    exact readInode_writeInode_same formatRoot t 0
  · unfold FsState.inodeStart at hhigh
    rw [hdisk, diskRead_write_of_ne _ (by omega) (by omega) (by omega),
      diskRead_write_of_ne _ (by omega) (by omega) (by omega)]
    exact diskRead_write_of_ne _ (by omega) (by omega) (by omega)

theorem diskOk_format {d : Drive} (h : BitmapCovers d) {t : FsState}
    (ht : t.sb = formatSb (fsGeometry (fsUsableBlocks d))) :
    DiskOk (sbWriteAll (writeInode t 0 formatRoot)) ∧
      readInode (sbWriteAll (writeInode t 0 formatRoot)) 0 = formatRoot := by
  have hok : SbOk (FsSb.setSeq t.sb (FsSb.seq t.sb + 1)) := by
    rw [ht]
    exact sbOk_formatSb h _
  have hvalid : FsSb.valid (FsSb.setSeq t.sb (FsSb.seq t.sb + 1)) = true := by
    rw [ht]
    exact (formatSb_fields _ _).1
  obtain ⟨hcopies, hroot, -⟩ := sbWriteAll_spec hok.geom
  exact ⟨⟨hok, hvalid, hcopies 0 (by omega), hcopies 1 (by omega)⟩, hroot⟩

/-- `fs_format` leaves a valid disk with an empty root directory. -/
theorem fsFormat_spec {kmalloc : ℕ → Bool} {d : Drive} (h : BitmapCovers d)
    (hok : (fsFormat kmalloc d s).1 = true) :
    DiskOk (fsFormat kmalloc d s).2 ∧ readInode (fsFormat kmalloc d s).2 0 = formatRoot := by
  rw [fsFormat] at hok ⊢
  split_ifs at hok ⊢ with hbitmap hinode
  exact diskOk_format h rfl

/-! ### Mounting -/

/-- The state `fs_mount` leaves when it succeeds. -/
def mountedState (s : FsState) : FsState :=
  { s with
    clusterBitmap := s.diskBitmap
    inodeBitmap := bitSet (List.replicate ((fsInodeCount + 7) / 8) 0) s.rootInode
    mounted := true }

/-- `read_any_sb` finds the superblock that both copies hold. -/
theorem readAnySb_of_copies {sb : Block} (hcopies : ∀ lba < 2, diskReadBlock s.disk lba = sb)
    (hvalid : FsSb.valid sb = true) : readAnySb s = some sb := by
  simp only [readAnySb, hcopies 0 (by omega), hcopies 1 (by omega), hvalid, le_refl, if_true]

theorem readAnySb_eq (h : DiskOk s) : readAnySb s = some s.sb := by
  refine readAnySb_of_copies (fun lba hlba ↦ ?_) h.valid
  obtain rfl | rfl : lba = 0 ∨ lba = 1 := by omega
  · exact h.copy0
  · exact h.copy1

/-- `fs_mount` of a disk with a superblock fails for lack of memory only. -/
theorem fsMount_of_readAnySb {kmalloc : ℕ → Bool} {sb : Block} (h : readAnySb s = some sb)
    (hok : (fsMount kmalloc s).1 = true) :
    (fsMount kmalloc s).2 = mountedState { s with sb := sb } := by
  rw [fsMount, h] at hok ⊢
  dsimp only at hok ⊢
  split_ifs at hok ⊢ with hmem
  rw [mountedState, FsState.diskBitmap]

theorem fsMount_eq {kmalloc : ℕ → Bool} (h : DiskOk s) (hok : (fsMount kmalloc s).1 = true) :
    (fsMount kmalloc s).2 = mountedState s := fsMount_of_readAnySb (readAnySb_eq h) hok

/-- The root directory of a disk without files: no entry, and a block that the bitmap on disk marks,
if it has one. -/
structure EmptyRoot (s : FsState) : Prop where
  size : (rootLoad s).size = 0 ↔ (rootLoad s).block 0 = 0
  rest : ∀ j, 0 < j → j < fsMaxBlocks → (rootLoad s).block j = 0
  entries : ∀ e < direntPerBlock, entryIno s e = 0
  marked : (rootLoad s).block 0 ≠ 0 → (rootLoad s).block 0 < s.blockCount ∧
    bitGet s.diskBitmap ((rootLoad s).block 0) = true

theorem rootLoad_mountedState (s : FsState) : rootLoad (mountedState s) = rootLoad s := rfl

theorem entryIno_mountedState (s : FsState) (e : ℕ) :
    entryIno (mountedState s) e = entryIno s e := rfl

theorem clusterBitmap_mountedState (s : FsState) :
    (mountedState s).clusterBitmap = s.diskBitmap := by
  rw [mountedState]

theorem marked_mountedState (s : FsState) (c : ℕ) : Marked (mountedState s) c ↔
    0 < c ∧ c < s.blockCount ∧ bitGet s.diskBitmap c = true := by
  rw [Marked, clusterBitmap_mountedState]
  exact Iff.rfl

theorem base_mountedState (h : DiskOk s) : FsBase (mountedState s) where
  sbOk := h.sbOk
  valid := h.valid
  copy0 := h.copy0
  copy1 := h.copy1
  mounted := rfl
  clusterLen := by
    rw [clusterBitmap_mountedState]
    exact length_loadBitmap _ _ _
  inodeLen := length_bitSet _ _

theorem root_bit_mountedState (h : DiskOk s) :
    bitGet (mountedState s).inodeBitmap 0 = true := by
  have hroot : s.rootInode = 0 := h.sbOk.rootInode
  rw [mountedState, hroot, bitGet_bitSet (by decide), decide_eq_true rfl, Bool.true_or]

section Empty

variable (hdisk : DiskOk s) (hroot : EmptyRoot s)

include hroot

theorem EmptyRoot.live {i : ℕ} (hi : Live (mountedState s) i) : i = 0 := by
  rcases hi with rfl | ⟨e, he, rfl, hne⟩
  · rfl
  · rw [entryIno_mountedState] at hne ⊢
    exact absurd (hroot.entries e he) hne

include hdisk

/-- The only owner in an empty filesystem is the first slot of the root inode. -/
theorem EmptyRoot.own {o : Owner} {c : ℕ} (ho : ownerOf (Live (mountedState s))
    (fun i ↦ (readInode (mountedState s) i).block) ∅ o = some c) :
    o = .slot 0 0 ∧ c ≠ 0 ∧ (rootLoad s).block 0 = c := by
  cases o with
  | held a => exact absurd (ownerOf_held.mp ho).1 (Finset.notMem_empty a)
  | slot i j =>
    obtain ⟨hi, hj, hne, heq⟩ := ownerOf_slot.mp ho
    obtain rfl := hroot.live hi
    rw [← (base_mountedState hdisk).rootLoad_eq, rootLoad_mountedState] at hne heq
    rcases Nat.eq_zero_or_pos j with rfl | hpos
    · exact ⟨rfl, heq ▸ hne, heq⟩
    · exact absurd (hroot.rest j hpos hj) hne

/-- Mounting a disk without files establishes the invariant. -/
theorem FsInv.mount : FsInv (mountedState s) ∅ := by
  have hbase := base_mountedState hdisk
  refine ⟨hbase, ⟨hroot.size, hroot.rest, ?_, ?_⟩, root_bit_mountedState hdisk, ?_, ?_, ⟨?_, ?_⟩⟩
  · intro e he hne
    rw [entryIno_mountedState] at hne
    exact absurd (hroot.entries e he) hne
  · intro e he _ _ hne
    rw [entryIno_mountedState] at hne
    exact absurd (hroot.entries e he) hne
  · exact fun j ↦ by rw [hbase.rootLoad_eq]
  · intro i hi j hj hne
    rw [hroot.live hi, ← hbase.rootLoad_eq, rootLoad_mountedState,
      hroot.rest (j + 1) (by omega) hj] at hne
    exact absurd rfl hne
  · intro o c ho
    obtain ⟨-, hne, rfl⟩ := EmptyRoot.own hdisk hroot ho
    obtain ⟨hlt, hbit⟩ := hroot.marked hne
    exact (marked_mountedState s _).mpr ⟨Nat.pos_of_ne_zero hne, hlt, hbit⟩
  · intro o o' c ho ho'
    rw [(EmptyRoot.own hdisk hroot ho).1, (EmptyRoot.own hdisk hroot ho').1]

end Empty

/-- A freshly formatted disk has an empty root directory. -/
theorem emptyRoot_of_format (hdisk : DiskOk s) (hroot : readInode s 0 = formatRoot) :
    EmptyRoot s := by
  have hrootLoad : rootLoad s = formatRoot := by
    rw [rootLoad, FsState.rootInode, hdisk.sbOk.rootInode, hroot]
  have hzero : ∀ j, (rootLoad s).block j = 0 := fun j ↦ by rw [hrootLoad, block_formatRoot]
  refine ⟨?_, fun j _ _ ↦ hzero j, fun e _ ↦ if_pos (hzero 0), fun hne ↦ absurd (hzero 0) hne⟩
  rw [hrootLoad, size_formatRoot, block_formatRoot]

/-- After `fs_format` and `fs_mount` the invariant holds, and no file exists. -/
theorem FsInv.initial {kmalloc kmalloc' : ℕ → Bool} {d : Drive} (h : BitmapCovers d)
    (hformat : (fsFormat kmalloc d s).1 = true)
    (hmount : (fsMount kmalloc' (fsFormat kmalloc d s).2).1 = true) :
    FsInv (fsMount kmalloc' (fsFormat kmalloc d s).2).2 ∅ ∧
      ∀ i, Live (fsMount kmalloc' (fsFormat kmalloc d s).2).2 i →
        i = 0 ∧ readInode (fsMount kmalloc' (fsFormat kmalloc d s).2).2 i = formatRoot := by
  obtain ⟨hdisk, hroot⟩ := fsFormat_spec h hformat
  have hempty := emptyRoot_of_format hdisk hroot
  rw [fsMount_eq hdisk hmount]
  refine ⟨FsInv.mount hdisk hempty, ?_⟩
  rintro i (rfl | ⟨e, he, rfl, hne⟩)
  · exact ⟨rfl, hroot⟩
  · exact absurd (hempty.entries e he) hne

end NoOsKernel.Fs
