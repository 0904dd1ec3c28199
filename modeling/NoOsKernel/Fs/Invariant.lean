import NoOsKernel.Fs.Primitives
import NoOsKernel.Lib.Ownership
import Mathlib.Data.Finset.Insert

/-!
# The ownership invariant of a mount session

`FsInv s held` is the invariant of a mounted filesystem. The root directory has at most one block;
its live entries carry distinct names and distinct inode numbers below 256 that are marked in the
inode bitmap; and the non-zero block slots of the live inodes, together with the clusters `held` by
direct callers of `fs_alloc_cluster`, own pairwise different clusters that are marked in the cluster
bitmap (`Lib.Exclusive`). The non-zero slots of an inode form a prefix: this is what makes a failed
`fs_write_file` harmless, since a write that frees blocks never has to allocate one.

While `fs_write_file` runs, the inode it works on is ahead of its copy on disk. `FsInvOn` therefore
takes the block slots from a parameter, and `FsInv` is its instance at the slots on disk.
-/

set_option autoImplicit false
set_option relaxedAutoImplicit false

namespace NoOsKernel.Fs

open Lib

/-! ### The directory as the invariant sees it -/

section View

variable (s : FsState)

/-- The inode number of entry `e` of the root directory, `0` for a free entry or when the directory
has no block yet. -/
def entryIno (e : ℕ) : ℕ :=
  if (rootLoad s).block 0 = 0 then 0 else FsDirent.inode (s.cluster ((rootLoad s).block 0)) e

/-- The name length of entry `e`. -/
def entryLen (e : ℕ) : ℕ := FsDirent.namelen (s.cluster ((rootLoad s).block 0)) e

/-- The name of entry `e`. -/
def entryName (e : ℕ) : CStr := FsDirent.name (s.cluster ((rootLoad s).block 0)) e

/-- An inode is live: the root, or the inode of a live entry. -/
def Live (i : ℕ) : Prop := i = 0 ∨ ∃ e < direntPerBlock, entryIno s e = i ∧ i ≠ 0

/-- A cluster marked in the RAM bitmap. -/
def Marked (c : ℕ) : Prop := 0 < c ∧ c < s.blockCount ∧ bitGet s.clusterBitmap c = true

end View

/-- Who may own a cluster: a block slot of an inode, or a caller of `fs_alloc_cluster`. -/
inductive Owner
  | slot (i j : ℕ)
  | held (c : ℕ)

open scoped Classical in
/-- The cluster an owner holds, for a set of live inodes with given block slots. -/
noncomputable def ownerOf (live : ℕ → Prop) (blk : ℕ → ℕ → ℕ) (held : Finset ℕ) :
    Owner → Option ℕ
  | .slot i j => if live i ∧ j < fsMaxBlocks ∧ blk i j ≠ 0 then some (blk i j) else none
  | .held c => if c ∈ held then some c else none

theorem ownerOf_slot {live : ℕ → Prop} {blk : ℕ → ℕ → ℕ} {held : Finset ℕ} {i j c : ℕ} :
    ownerOf live blk held (.slot i j) = some c ↔
      live i ∧ j < fsMaxBlocks ∧ blk i j ≠ 0 ∧ blk i j = c := by
  rw [ownerOf]
  split_ifs with h
  · simp [h]
  · simp only [false_iff]
    rintro ⟨hlive, hj, hne, -⟩
    exact h ⟨hlive, hj, hne⟩

theorem ownerOf_held {live : ℕ → Prop} {blk : ℕ → ℕ → ℕ} {held : Finset ℕ} {a c : ℕ} :
    ownerOf live blk held (.held a) = some c ↔ a ∈ held ∧ a = c := by
  rw [ownerOf]
  split_ifs with h <;> simp [h]

/-- What every operation leaves alone: geometry, superblock copies and the bitmap buffers. -/
structure FsBase (s : FsState) : Prop where
  sbOk : SbOk s.sb
  valid : FsSb.valid s.sb = true
  copy0 : diskReadBlock s.disk 0 = s.sb
  copy1 : diskReadBlock s.disk 1 = s.sb
  mounted : s.mounted = true
  clusterLen : s.clusterBitmap.length = 512 * s.bitmapBlocks
  inodeLen : s.inodeBitmap.length = 32

/-- The root directory: one block at most, and live entries with distinct names and distinct marked
inodes. -/
structure DirOk (s : FsState) : Prop where
  root_size : (rootLoad s).size = 0 ↔ (rootLoad s).block 0 = 0
  root_rest : ∀ j, 0 < j → j < fsMaxBlocks → (rootLoad s).block j = 0
  entry_ok : ∀ e < direntPerBlock, entryIno s e ≠ 0 →
    entryIno s e < 256 ∧ bitGet s.inodeBitmap (entryIno s e) = true ∧ entryLen s e ≤ fsNameMax
  entry_inj : ∀ e < direntPerBlock, ∀ e' < direntPerBlock, entryIno s e ≠ 0 → entryIno s e' ≠ 0 →
    (entryIno s e = entryIno s e' ∨ entryName s e = entryName s e') → e = e'

/-- The invariant, for live inodes whose block slots are `blk`. -/
structure FsInvOn (s : FsState) (held : Finset ℕ) (blk : ℕ → ℕ → ℕ) : Prop where
  base : FsBase s
  dir : DirOk s
  root_bit : bitGet s.inodeBitmap 0 = true
  root_blk : ∀ j, blk 0 j = (rootLoad s).block j
  slots_pre : ∀ i, Live s i → ∀ j, j + 1 < fsMaxBlocks → blk i (j + 1) ≠ 0 → blk i j ≠ 0
  own : Exclusive (ownerOf (Live s) blk held) (Marked s)

/-- The invariant of a mounted filesystem. -/
def FsInv (s : FsState) (held : Finset ℕ) : Prop :=
  FsInvOn s held fun i ↦ (readInode s i).block

/-! ### Immediate consequences -/

section Consequences

variable {s : FsState} {held : Finset ℕ} {blk : ℕ → ℕ → ℕ}

theorem FsBase.cluster_lt_bitLen (h : FsBase s) {c : ℕ} (hc : c < s.blockCount) :
    c < bitLen s.clusterBitmap := by
  have hbits := h.sbOk.bits
  have hlen := h.clusterLen
  unfold FsState.blockCount at hc
  unfold FsState.bitmapBlocks at hlen
  unfold bitLen
  omega

theorem FsBase.inode_lt_bitLen (h : FsBase s) {i : ℕ} (hi : i < 256) :
    i < bitLen s.inodeBitmap := by
  have hlen := h.inodeLen
  unfold bitLen
  omega

theorem FsBase.rootLoad_eq (h : FsBase s) : rootLoad s = readInode s 0 := by
  rw [rootLoad, FsState.rootInode, h.sbOk.rootInode]

theorem Live.root (s : FsState) : Live s 0 := Or.inl rfl

theorem DirOk.live_lt (h : DirOk s) {i : ℕ} (hi : Live s i) : i < 256 := by
  rcases hi with rfl | ⟨e, he, rfl, hne⟩
  · omega
  · exact (h.entry_ok e he hne).1

theorem FsInvOn.live_bit (h : FsInvOn s held blk) {i : ℕ} (hi : Live s i) :
    bitGet s.inodeBitmap i = true := by
  rcases hi with rfl | ⟨e, he, rfl, hne⟩
  · exact h.root_bit
  · exact (h.dir.entry_ok e he hne).2.1

/-- A block slot of a live inode holds a marked cluster. -/
theorem FsInvOn.slot_marked (h : FsInvOn s held blk) {i j : ℕ} (hi : Live s i)
    (hj : j < fsMaxBlocks) (hne : blk i j ≠ 0) : Marked s (blk i j) :=
  h.own.marked_of_own (.slot i j) _ (ownerOf_slot.mpr ⟨hi, hj, hne, rfl⟩)

/-- Two block slots of live inodes with one cluster are the same slot. -/
theorem FsInvOn.slot_inj (h : FsInvOn s held blk) {i j i' j' : ℕ} (hi : Live s i)
    (hi' : Live s i') (hj : j < fsMaxBlocks) (hj' : j' < fsMaxBlocks) (hne : blk i j ≠ 0)
    (heq : blk i j = blk i' j') : i = i' ∧ j = j' := by
  have hsame := h.own.own_inj (.slot i j) (.slot i' j') (blk i j)
    (ownerOf_slot.mpr ⟨hi, hj, hne, rfl⟩)
    (ownerOf_slot.mpr ⟨hi', hj', fun hzero ↦ hne (heq.trans hzero), heq.symm⟩)
  injection hsame with hi hj
  exact ⟨hi, hj⟩

/-- The directory block, when there is one, is a marked cluster. -/
theorem FsInvOn.dir_marked (h : FsInvOn s held blk) (hblk : (rootLoad s).block 0 ≠ 0) :
    Marked s ((rootLoad s).block 0) := by
  have hmarked := h.slot_marked (Live.root s) (j := 0) (by decide) (by rwa [h.root_blk])
  rwa [h.root_blk] at hmarked

end Consequences

/-! ### States with the same directory -/

/-- The two states have the same root inode and directory block. -/
structure SameDir (s s' : FsState) : Prop where
  root : rootLoad s' = rootLoad s
  block : (rootLoad s).block 0 ≠ 0 →
    s'.cluster ((rootLoad s).block 0) = s.cluster ((rootLoad s).block 0)

section SameDir

variable {s s' : FsState}

theorem SameDir.entryIno (h : SameDir s s') (e : ℕ) : entryIno s' e = entryIno s e := by
  unfold Fs.entryIno
  rw [h.root]
  split_ifs with hblk
  · rfl
  · rw [h.block hblk]

theorem SameDir.live (h : SameDir s s') (i : ℕ) : Live s' i ↔ Live s i := by
  simp only [Live, h.entryIno]

theorem SameDir.block_ne_zero {e : ℕ} (he : Fs.entryIno s e ≠ 0) :
    (rootLoad s).block 0 ≠ 0 := by
  intro hblk
  exact he (if_pos hblk)

theorem SameDir.entryName (h : SameDir s s') {e : ℕ} (he : Fs.entryIno s e ≠ 0) :
    entryName s' e = entryName s e := by
  unfold Fs.entryName
  rw [h.root, h.block (block_ne_zero he)]

theorem SameDir.entryLen (h : SameDir s s') {e : ℕ} (he : Fs.entryIno s e ≠ 0) :
    entryLen s' e = entryLen s e := by
  unfold Fs.entryLen
  rw [h.root, h.block (block_ne_zero he)]

/-- The same directory over an inode bitmap that kept its marks. -/
theorem DirOk.congr (hdir : DirOk s) (h : SameDir s s')
    (hbits : ∀ i, bitGet s.inodeBitmap i = true → bitGet s'.inodeBitmap i = true) : DirOk s' where
  root_size := by rw [h.root]; exact hdir.root_size
  root_rest := by rw [h.root]; exact hdir.root_rest
  entry_ok e he hne := by
    rw [h.entryIno] at hne ⊢
    obtain ⟨hlt, hbit, hlen⟩ := hdir.entry_ok e he hne
    exact ⟨hlt, hbits _ hbit, by rwa [h.entryLen hne]⟩
  entry_inj e he e' he' hne hne' heq := by
    rw [h.entryIno] at hne hne'
    rw [h.entryIno, h.entryIno, h.entryName hne, h.entryName hne'] at heq
    exact hdir.entry_inj e he e' he' hne hne' heq

end SameDir

end NoOsKernel.Fs
