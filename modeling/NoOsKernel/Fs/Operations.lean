import NoOsKernel.Fs.Invariant
import Mathlib.Data.Finset.Erase

/-!
# Every operation keeps the invariant

One lemma for each primitive step (allocating or freeing a cluster, writing an unreferenced inode,
adding and removing a directory entry, the two loops of `fs_write_file`) and, from them, the
preservation theorems for `fs_create`, `fs_write_file`, `fs_unlink`, the cluster calls and
`fs_sync_bitmap`, on every exit of each.
-/

set_option autoImplicit false
set_option relaxedAutoImplicit false

namespace NoOsKernel.Fs

open Lib

variable {s s' : FsState} {held : Finset ℕ} {blk : ℕ → ℕ → ℕ}

/-! ### States with the same directory and inode marks -/

/-- The invariant in a state that kept the directory and the inode marks, for other block slots. -/
theorem FsInvOn.transport (h : FsInvOn s held blk) (hbase : FsBase s') (hsame : SameDir s s')
    (hbits : ∀ i, bitGet s.inodeBitmap i = true → bitGet s'.inodeBitmap i = true)
    {held' : Finset ℕ} {blk' : ℕ → ℕ → ℕ} (hroot : ∀ j, blk' 0 j = blk 0 j)
    (hpre : ∀ i, Live s i → ∀ j, j + 1 < fsMaxBlocks → blk' i (j + 1) ≠ 0 → blk' i j ≠ 0)
    (hown : Exclusive (ownerOf (Live s) blk' held') (Marked s')) : FsInvOn s' held' blk' where
  base := hbase
  dir := h.dir.congr hsame hbits
  root_bit := hbits 0 h.root_bit
  root_blk j := by rw [hsame.root, hroot, h.root_blk]
  slots_pre i hi := hpre i ((hsame.live i).mp hi)
  own := by
    have hlive : Live s' = Live s := funext fun i ↦ propext (hsame.live i)
    rwa [hlive]

/-- Owners among the same live inodes, by other names for their block slots. -/
theorem ownerOf_congr {live : ℕ → Prop} {blk' : ℕ → ℕ → ℕ}
    (h : ∀ i, live i → ∀ j, blk' i j = blk i j) {o : Owner} {c : ℕ}
    (ho : ownerOf live blk' held o = some c) : ownerOf live blk held o = some c := by
  cases o with
  | slot i j =>
    obtain ⟨hi, hj, hne, heq⟩ := ownerOf_slot.mp ho
    rw [h i hi] at hne heq
    exact ownerOf_slot.mpr ⟨hi, hj, hne, heq⟩
  | held a => exact ownerOf_held.mpr (ownerOf_held.mp ho)

/-- The invariant in a state that kept the directory and the marks, with the same slots in the live
inodes. -/
theorem FsInvOn.transport_same (h : FsInvOn s held blk) (hbase : FsBase s') (hsame : SameDir s s')
    (hbits : ∀ i, bitGet s.inodeBitmap i = true → bitGet s'.inodeBitmap i = true)
    (hmarked : ∀ c, Marked s c → Marked s' c) {blk' : ℕ → ℕ → ℕ}
    (hblk : ∀ i, Live s i → ∀ j, blk' i j = blk i j) : FsInvOn s' held blk' := by
  refine h.transport hbase hsame hbits (hblk 0 (Live.root s)) (fun i hi j hj hne ↦ ?_)
    (h.own.mono (fun o c ho ↦ ownerOf_congr hblk ho) hmarked)
  rw [hblk i hi] at hne ⊢
  exact h.slots_pre i hi j hj hne

/-- The invariant with some block slots given up, as long as the rest is a prefix. -/
theorem FsInvOn.shrink (h : FsInvOn s held blk) {blk' : ℕ → ℕ → ℕ}
    (hroot : ∀ j, blk' 0 j = blk 0 j)
    (hpre : ∀ i, Live s i → ∀ j, j + 1 < fsMaxBlocks → blk' i (j + 1) ≠ 0 → blk' i j ≠ 0)
    (hsub : ∀ i, Live s i → ∀ j, blk' i j ≠ 0 → blk i j = blk' i j) : FsInvOn s held blk' := by
  refine h.transport h.base ⟨rfl, fun _ ↦ rfl⟩ (fun _ hbit ↦ hbit) hroot hpre
    (h.own.mono (fun o c ho ↦ ?_) fun _ hk ↦ hk)
  cases o with
  | slot i j =>
    obtain ⟨hi, hj, hne, heq⟩ := ownerOf_slot.mp ho
    have hsame := hsub i hi j hne
    exact ownerOf_slot.mpr ⟨hi, hj, by rwa [hsame], hsame.trans heq⟩
  | held a => exact ownerOf_held.mpr (ownerOf_held.mp ho)

/-- Past an empty slot of a live inode every slot is empty. -/
theorem FsInvOn.slots_zero (h : FsInvOn s held blk) {i j : ℕ} (hi : Live s i) (hzero : blk i j = 0)
    {k : ℕ} (hjk : j ≤ k) (hk : k < fsMaxBlocks) : blk i k = 0 := by
  induction k, hjk using Nat.le_induction with
  | base => exact hzero
  | succ k _ ih =>
    by_contra hne
    exact h.slots_pre i hi k hk hne (ih (by omega))

/-- A step outside the metadata: the directory, the inode table, the inode marks and the bitmap on
disk stay as they are. -/
structure Frame (s s' : FsState) : Prop where
  dir : SameDir s s'
  inodes : ∀ i < 256, readInode s' i = readInode s i
  inodeBitmap : s'.inodeBitmap = s.inodeBitmap
  diskBitmap : s'.diskBitmap = s.diskBitmap

theorem SameDir.trans {s'' : FsState} (h : SameDir s s') (h' : SameDir s' s'') :
    SameDir s s'' := by
  refine ⟨h'.root.trans h.root, fun hblk ↦ ?_⟩
  have hblock' := h'.block (by rwa [h.root])
  rw [h.root] at hblock'
  exact hblock'.trans (h.block hblk)

theorem Frame.refl (s : FsState) : Frame s s := ⟨⟨rfl, fun _ ↦ rfl⟩, fun _ _ ↦ rfl, rfl, rfl⟩

theorem Frame.trans {s'' : FsState} (h : Frame s s') (h' : Frame s' s'') : Frame s s'' where
  dir := h.dir.trans h'.dir
  inodes i hi := (h'.inodes i hi).trans (h.inodes i hi)
  inodeBitmap := h'.inodeBitmap.trans h.inodeBitmap
  diskBitmap := h'.diskBitmap.trans h.diskBitmap

/-! ### Changing only the cluster bitmap -/

/-- The state with another cluster bitmap. -/
def FsState.withClusters (s : FsState) (bm : List Byte) : FsState := { s with clusterBitmap := bm }

theorem frame_withClusters (s : FsState) (bm : List Byte) : Frame s (s.withClusters bm) :=
  ⟨⟨rfl, fun _ ↦ rfl⟩, fun _ _ ↦ rfl, rfl, rfl⟩

theorem FsBase.withClusters (h : FsBase s) {bm : List Byte}
    (hlen : bm.length = s.clusterBitmap.length) : FsBase (s.withClusters bm) where
  sbOk := h.sbOk
  valid := h.valid
  copy0 := h.copy0
  copy1 := h.copy1
  mounted := h.mounted
  clusterLen := hlen.trans h.clusterLen
  inodeLen := h.inodeLen

/-- Replacing the cluster bitmap, when the ownership relation follows. -/
theorem FsInvOn.withClusters (h : FsInvOn s held blk) {bm : List Byte} {held' : Finset ℕ}
    {blk' : ℕ → ℕ → ℕ} (hlen : bm.length = s.clusterBitmap.length)
    (hroot : ∀ j, blk' 0 j = blk 0 j)
    (hpre : ∀ i, Live s i → ∀ j, j + 1 < fsMaxBlocks → blk' i (j + 1) ≠ 0 → blk' i j ≠ 0)
    (hown : Exclusive (ownerOf (Live s) blk' held') (Marked (s.withClusters bm))) :
    FsInvOn (s.withClusters bm) held' blk' :=
  h.transport (h.base.withClusters hlen) (frame_withClusters s bm).dir (fun _ hbit ↦ hbit) hroot
    hpre hown

/-! ### Allocating and freeing clusters -/

/-- What `fs_alloc_cluster` returns: a clear cluster, now marked. -/
theorem fsAllocCluster_eq_some (hmounted : s.mounted = true) {c : ℕ}
    (h : fsAllocCluster s = some (c, s')) :
    firstClear s.clusterBitmap 1 s.blockCount = some c ∧
      s' = s.withClusters (bitSet s.clusterBitmap c) := by
  rw [fsAllocCluster, if_pos hmounted, Option.map_eq_some_iff] at h
  obtain ⟨c', hfirst, heq⟩ := h
  obtain ⟨rfl, rfl⟩ := Prod.mk.injEq .. ▸ heq
  exact ⟨hfirst, rfl⟩

theorem marked_bitSet (hbase : FsBase s) {c : ℕ} (hc : c < s.blockCount) (k : ℕ) :
    Marked (s.withClusters (bitSet s.clusterBitmap c)) k ↔
      Marked s k ∨ (0 < k ∧ k = c) := by
  have hlen := hbase.cluster_lt_bitLen hc
  change (0 < k ∧ k < s.blockCount ∧ bitGet (bitSet s.clusterBitmap c) k = true) ↔ _
  rw [bitGet_bitSet hlen]
  simp only [Marked, Bool.or_eq_true, decide_eq_true_eq]
  constructor
  · rintro ⟨hpos, hlt, rfl | hbit⟩
    · exact Or.inr ⟨hpos, rfl⟩
    · exact Or.inl ⟨hpos, hlt, hbit⟩
  · rintro (⟨hpos, hlt, hbit⟩ | ⟨hpos, rfl⟩)
    · exact ⟨hpos, hlt, Or.inr hbit⟩
    · exact ⟨hpos, hc, Or.inl rfl⟩

/-- A cluster that `fs_alloc_cluster` returns, given to one owner. -/
theorem FsInvOn.alloc (h : FsInvOn s held blk) {c : ℕ} (halloc : fsAllocCluster s = some (c, s'))
    {held' : Finset ℕ} {blk' : ℕ → ℕ → ℕ} (o : Owner) (hroot : ∀ j, blk' 0 j = blk 0 j)
    (hpre : ∀ i, Live s i → ∀ j, j + 1 < fsMaxBlocks → blk' i (j + 1) ≠ 0 → blk' i j ≠ 0)
    (hown : ∀ o' k, ownerOf (Live s) blk' held' o' = some k →
      ownerOf (Live s) blk held o' = some k ∨ (o' = o ∧ k = c)) :
    0 < c ∧ c < s.blockCount ∧ FsInvOn s' held' blk' := by
  obtain ⟨hfirst, rfl⟩ := fsAllocCluster_eq_some h.base.mounted halloc
  obtain ⟨hpos, hlt, hclear⟩ := firstClear_eq_some hfirst
  refine ⟨hpos, hlt, h.withClusters (length_bitSet _ _) hroot hpre ?_⟩
  have hfresh : ¬ Marked s c := fun hmarked ↦ by
    have hbit := hmarked.2.2
    rw [hclear] at hbit
    exact Bool.false_ne_true hbit
  refine h.own.take hfresh hown (fun k hk ↦ ?_) ?_
  · exact (marked_bitSet h.base hlt k).mpr (Or.inl hk)
  · exact (marked_bitSet h.base hlt c).mpr (Or.inr ⟨hpos, rfl⟩)

/-- `fs_alloc_cluster` called directly: the caller holds the cluster. -/
theorem FsInv.allocCluster (h : FsInv s held) {c : ℕ} (halloc : fsAllocCluster s = some (c, s')) :
    FsInv s' (insert c held) := by
  obtain ⟨hfirst, hs'⟩ := fsAllocCluster_eq_some h.base.mounted halloc
  have hown : ∀ o' k, ownerOf (Live s) (fun i ↦ (readInode s i).block) (insert c held) o' = some k →
      ownerOf (Live s) (fun i ↦ (readInode s i).block) held o' = some k ∨
        (o' = .held c ∧ k = c) := by
    intro o' k ho
    cases o' with
    | slot i j => exact Or.inl (ownerOf_slot.mpr (ownerOf_slot.mp ho))
    | held a =>
      obtain ⟨hmem, rfl⟩ := ownerOf_held.mp ho
      rcases Finset.mem_insert.mp hmem with rfl | hold
      · exact Or.inr ⟨rfl, rfl⟩
      · exact Or.inl (ownerOf_held.mpr ⟨hold, rfl⟩)
  obtain ⟨-, -, hinv⟩ := FsInvOn.alloc h halloc (.held c) (fun _ ↦ rfl) h.slots_pre hown
  subst hs'
  exact hinv

/-- Clearing the bits of clusters, one after the other. -/
theorem clear_bits (bm : List Byte) (clusters : List ℕ) (hlen : ∀ c ∈ clusters, c < bitLen bm) :
    (clusters.foldl bitClr bm).length = bm.length ∧
      ∀ k, bitGet (clusters.foldl bitClr bm) k = true ↔ bitGet bm k = true ∧ k ∉ clusters := by
  induction clusters generalizing bm with
  | nil => simp
  | cons c rest ih =>
    have hc := hlen c (List.mem_cons_self ..)
    have hrest : ∀ c' ∈ rest, c' < bitLen (bitClr bm c) := by
      intro c' hc'
      rw [bitLen, length_bitClr]
      exact hlen c' (List.mem_cons_of_mem _ hc')
    obtain ⟨hlength, hbits⟩ := ih (bitClr bm c) hrest
    refine ⟨by rw [List.foldl_cons, hlength, length_bitClr], fun k ↦ ?_⟩
    rw [List.foldl_cons, hbits, bitGet_bitClr hc]
    simp only [Bool.and_eq_true, Bool.not_eq_true', decide_eq_false_iff_not, List.mem_cons, not_or]
    tauto

/-- Clearing the bits of the clusters that some owners held, while these owners give them up. -/
theorem FsInvOn.release (h : FsInvOn s held blk) (clusters : List ℕ)
    (hlt : ∀ c ∈ clusters, c < s.blockCount) (gone : Owner → Prop) {held' : Finset ℕ}
    {blk' : ℕ → ℕ → ℕ} (hroot : ∀ j, blk' 0 j = blk 0 j)
    (hpre : ∀ i, Live s i → ∀ j, j + 1 < fsMaxBlocks → blk' i (j + 1) ≠ 0 → blk' i j ≠ 0)
    (hown : ∀ o k, ownerOf (Live s) blk' held' o = some k →
      ownerOf (Live s) blk held o = some k ∧ ¬ gone o)
    (hgone : ∀ c ∈ clusters, ∃ o, gone o ∧ ownerOf (Live s) blk held o = some c) :
    FsInvOn (s.withClusters (clusters.foldl bitClr s.clusterBitmap)) held' blk' := by
  obtain ⟨hlength, hbits⟩ := clear_bits s.clusterBitmap clusters
    fun c hc ↦ h.base.cluster_lt_bitLen (hlt c hc)
  refine h.withClusters hlength hroot hpre (h.own.release gone hown fun k hk ↦ ?_)
  by_cases hmem : k ∈ clusters
  · exact Or.inr (hgone k hmem)
  · exact Or.inl ⟨hk.1, hk.2.1, (hbits k).mpr ⟨hk.2.2, hmem⟩⟩

/-- `fs_free_cluster` of a held cluster. -/
theorem FsInv.freeCluster (h : FsInv s held) {c : ℕ} (hc : c ∈ held) :
    FsInv (fsFreeCluster s c) (held.erase c) := by
  have hmarked : Marked s c := h.own.marked_of_own (.held c) c (ownerOf_held.mpr ⟨hc, rfl⟩)
  have hfree : fsFreeCluster s c = s.withClusters ([c].foldl bitClr s.clusterBitmap) :=
    if_pos hmarked.2.1
  rw [hfree]
  refine FsInvOn.release h [c] (by simpa using hmarked.2.1) (fun o ↦ o = .held c) (fun _ ↦ rfl)
    h.slots_pre (fun o k ho ↦ ?_) (fun k hk ↦ ⟨.held c, rfl, ?_⟩)
  · cases o with
    | slot i j => exact ⟨ownerOf_slot.mpr (ownerOf_slot.mp ho), by simp⟩
    | held a =>
      obtain ⟨hmem, rfl⟩ := ownerOf_held.mp ho
      obtain ⟨hne, hold⟩ := Finset.mem_erase.mp hmem
      exact ⟨ownerOf_held.mpr ⟨hold, rfl⟩, by simpa using hne⟩
  · rw [List.mem_singleton] at hk
    rw [hk]
    exact ownerOf_held.mpr ⟨hc, rfl⟩

/-! ### Flushing the bitmap -/

theorem sameDir_fsSyncBitmap (h : FsInvOn s held blk) : SameDir s (fsSyncBitmap s) where
  root := by
    rw [rootLoad, FsState.rootInode, sb_fsSyncBitmap, h.base.sbOk.rootInode,
      readInode_fsSyncBitmap h.base.sbOk (by omega), h.base.rootLoad_eq]
  block hblk := cluster_fsSyncBitmap h.base.sbOk (h.dir_marked hblk).2.1

theorem FsBase.syncBitmap (h : FsBase s) : FsBase (fsSyncBitmap s) where
  sbOk := by rw [sb_fsSyncBitmap]; exact h.sbOk
  valid := by rw [sb_fsSyncBitmap]; exact h.valid
  copy0 := by
    rw [diskRead_fsSyncBitmap h.sbOk 0 (by omega) (Or.inl (by omega)), sb_fsSyncBitmap]
    exact h.copy0
  copy1 := by
    rw [diskRead_fsSyncBitmap h.sbOk 1 (by omega) (Or.inl (by omega)), sb_fsSyncBitmap]
    exact h.copy1
  mounted := by rw [mounted_fsSyncBitmap]; exact h.mounted
  clusterLen := by
    rw [clusterBitmap_fsSyncBitmap, FsState.bitmapBlocks, sb_fsSyncBitmap]
    exact h.clusterLen
  inodeLen := by rw [inodeBitmap_fsSyncBitmap]; exact h.inodeLen

theorem marked_fsSyncBitmap (s : FsState) (c : ℕ) : Marked (fsSyncBitmap s) c ↔ Marked s c := by
  simp only [Marked, FsState.blockCount, sb_fsSyncBitmap, clusterBitmap_fsSyncBitmap]

/-- `fs_sync_bitmap` changes nothing the invariant is about. -/
theorem FsInv.syncBitmap (h : FsInv s held) : FsInv (fsSyncBitmap s) held := by
  refine FsInvOn.transport_same h h.base.syncBitmap (sameDir_fsSyncBitmap h)
    (fun i hbit ↦ by rwa [inodeBitmap_fsSyncBitmap])
    (fun c hc ↦ (marked_fsSyncBitmap s c).mpr hc) fun i hi j ↦ ?_
  rw [readInode_fsSyncBitmap h.base.sbOk (h.dir.live_lt hi)]

/-! ### Writing a cluster -/

theorem FsBase.setCluster (h : FsBase s) {c : ℕ} (hc : c < s.blockCount) (buf : Block) :
    FsBase (s.setCluster c buf) where
  sbOk := h.sbOk
  valid := h.valid
  copy0 := (readSb_setCluster buf h.sbOk hc (by omega)).trans h.copy0
  copy1 := (readSb_setCluster buf h.sbOk hc (by omega)).trans h.copy1
  mounted := h.mounted
  clusterLen := h.clusterLen
  inodeLen := h.inodeLen

theorem rootLoad_setCluster (h : FsBase s) {c : ℕ} (hpos : 0 < c) (hc : c < s.blockCount)
    (buf : Block) : rootLoad (s.setCluster c buf) = rootLoad s := by
  rw [(h.setCluster hc buf).rootLoad_eq, h.rootLoad_eq,
    readInode_setCluster buf h.sbOk hpos hc (by omega)]

/-- Writing a cluster of the data area that is not the directory block. -/
theorem frame_setCluster (h : FsInvOn s held blk) {c : ℕ} (hc : Marked s c)
    (hdir : c ≠ (rootLoad s).block 0) (buf : Block) : Frame s (s.setCluster c buf) where
  dir := ⟨rootLoad_setCluster h.base hc.1 hc.2.1 buf, fun hblk ↦
    cluster_setCluster_of_ne buf h.base.sbOk hc.2.1 (h.dir_marked hblk).2.1 (Ne.symm hdir)⟩
  inodes _ hi := readInode_setCluster buf h.base.sbOk hc.1 hc.2.1 hi
  inodeBitmap := rfl
  diskBitmap := diskBitmap_setCluster buf h.base.sbOk hc.2.1

theorem FsInvOn.setCluster (h : FsInvOn s held blk) {c : ℕ} (hc : Marked s c)
    (hdir : c ≠ (rootLoad s).block 0) (buf : Block) : FsInvOn (s.setCluster c buf) held blk :=
  h.transport_same (h.base.setCluster hc.2.1 buf) (frame_setCluster h hc hdir buf).dir
    (fun _ hbit ↦ hbit) (fun _ hk ↦ hk) fun _ _ _ ↦ rfl

/-! ### Writing an inode other than the root's -/

theorem FsBase.storeInode (h : FsBase s) {ino : ℕ} (hino : ino < 256) (x : FsInode) :
    FsBase (writeInode s ino x) where
  sbOk := h.sbOk
  valid := h.valid
  copy0 := (readSb_writeInode x h.sbOk hino (by omega)).trans h.copy0
  copy1 := (readSb_writeInode x h.sbOk hino (by omega)).trans h.copy1
  mounted := h.mounted
  clusterLen := h.clusterLen
  inodeLen := h.inodeLen

theorem sameDir_writeInode (h : FsInvOn s held blk) {ino : ℕ} (hino : ino < 256) (hne : ino ≠ 0)
    (x : FsInode) : SameDir s (writeInode s ino x) where
  root := by
    rw [(h.base.storeInode hino x).rootLoad_eq, h.base.rootLoad_eq,
      readInode_writeInode_of_ne x h.base.sbOk hino (by omega) (Ne.symm hne)]
  block hblk := by
    obtain ⟨hpos, hlt, -⟩ := h.dir_marked hblk
    exact cluster_writeInode x h.base.sbOk hino hpos hlt

/-- The block slots of the inodes on disk, with an inode in RAM in the place of one of them. -/
def slotsWith (s : FsState) (ino : ℕ) (x : FsInode) : ℕ → ℕ → ℕ := fun i ↦
  if i = ino then x.block else (readInode s i).block

/-- Storing an inode on disk, once its block slots own their clusters. -/
theorem FsInvOn.storeInode {ino : ℕ} {i x : FsInode} (h : FsInvOn s held (slotsWith s ino i))
    (hino : ino < 256) (hne : ino ≠ 0) (hx : ∀ j, x.block j = i.block j) :
    FsInv (writeInode s ino x) held := by
  refine h.transport_same (h.base.storeInode hino x) (sameDir_writeInode h hino hne x)
    (fun _ hbit ↦ hbit) (fun _ hk ↦ hk) fun k hk j ↦ ?_
  rw [slotsWith]
  split_ifs with heq
  · rw [heq, readInode_writeInode_same, hx]
  · rw [readInode_writeInode_of_ne x h.base.sbOk hino (h.dir.live_lt hk) heq]

/-- The inode in RAM when it is the one on disk, or when the inode is not live. -/
theorem FsInv.onSlotsWith (h : FsInv s held) {ino : ℕ} {x : FsInode}
    (hx : Live s ino → ∀ j, x.block j = (readInode s ino).block j) :
    FsInvOn s held (slotsWith s ino x) := by
  refine FsInvOn.transport_same h h.base ⟨rfl, fun _ ↦ rfl⟩ (fun _ hbit ↦ hbit) (fun _ hk ↦ hk)
    fun k hk j ↦ ?_
  rw [slotsWith]
  split_ifs with heq
  · subst heq
    exact hx hk j
  · rfl

end NoOsKernel.Fs
