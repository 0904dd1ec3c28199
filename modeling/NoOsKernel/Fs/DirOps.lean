import NoOsKernel.Fs.FileOps

/-!
# Creating and removing directory entries

`fs_lookup`, `fs_create` and `fs_unlink` on a filesystem that satisfies the invariant. The directory
has one block at most, so the scans of the source reduce to a search in that block (`dirScan_eq`).
`CreateSpec` and `UnlinkSpec` list what the two operations can do to the live inodes, on every exit.
-/

set_option autoImplicit false
set_option relaxedAutoImplicit false

namespace NoOsKernel.Fs

open Lib

variable {s s' : FsState} {held : Finset ℕ} {nm : CStr}

/-! ### Looking names up -/

/-- A scan over a directory with one block is a search in that block. -/
theorem dirScan_eq {root : FsInode} (test : Block → ℕ → Bool) (hblk : root.block 0 ≠ 0)
    (hlt : root.block 0 < s.blockCount) (hrest : root.block 1 = 0) :
    dirScan s root test (List.range fsMaxBlocks) =
      ((List.range direntPerBlock).find? (test (s.cluster (root.block 0)))).map fun e ↦ (0, e) := by
  have hread : fsClusterRead s (root.block 0) = some (s.cluster (root.block 0)) :=
    if_neg (by omega)
  have hrange : List.range fsMaxBlocks = 0 :: 1 :: List.range' 2 8 := by decide
  rw [hrange, dirScan, if_neg hblk, hread]
  rcases hfind : (List.range direntPerBlock).find? (test (s.cluster (root.block 0))) with - | e
  · simp only [hfind, dirScan, hrest, if_true, Option.map_none]
  · simp only [hfind, Option.map_some]

theorem dirScan_of_zero {root : FsInode} (test : Block → ℕ → Bool) (hblk : root.block 0 = 0) :
    dirScan s root test (List.range fsMaxBlocks) = none := by
  have hrange : List.range fsMaxBlocks = 0 :: List.range' 1 9 := by decide
  rw [hrange, dirScan, if_pos hblk]

theorem entryIno_of_ne (hblk : (rootLoad s).block 0 ≠ 0) (e : ℕ) :
    entryIno s e = FsDirent.inode (s.cluster ((rootLoad s).block 0)) e := if_neg hblk

theorem toInt32_of_lt {v : ℕ} (hv : v < 2 ^ 31) : toInt32 v = v := if_pos hv

/-- `dir_find_slot` finds the live entry with the name, if there is one. -/
theorem dirFindSlot_spec (h : FsInv s held) (nm : CStr) :
    (dirFindSlot s (rootLoad s) nm = none ∧
        ∀ e < direntPerBlock, entryIno s e ≠ 0 → entryName s e ≠ nm) ∨
      ∃ e < direntPerBlock, dirFindSlot s (rootLoad s) nm = some (0, e) ∧ entryIno s e ≠ 0 ∧
        entryName s e = nm := by
  by_cases hblk : (rootLoad s).block 0 = 0
  · refine Or.inl ⟨dirScan_of_zero _ hblk, fun e _ hne ↦ ?_⟩
    exact absurd hblk (SameDir.block_ne_zero hne)
  · have hscan := dirScan_eq (FsDirent.isNamed nm) hblk (FsInvOn.dir_marked h hblk).2.1
      (h.dir.root_rest 1 (by omega) (by decide))
    rcases hfind : (List.range direntPerBlock).find?
      (FsDirent.isNamed nm (s.cluster ((rootLoad s).block 0))) with - | e
    · rw [hfind] at hscan
      refine Or.inl ⟨hscan, fun e he hne hname ↦ ?_⟩
      rw [entryIno_of_ne hblk] at hne
      exact List.find?_eq_none.mp hfind e (List.mem_range.mpr he)
        (FsDirent.isNamed_iff.mpr ⟨hne, hname⟩)
    · have hmem := List.mem_range.mp (List.mem_of_find?_eq_some hfind)
      obtain ⟨hne, hname⟩ := FsDirent.isNamed_iff.mp (List.find?_some hfind)
      rw [hfind] at hscan
      exact Or.inr ⟨e, hmem, hscan, by rwa [entryIno_of_ne hblk], hname⟩

/-- `fs_lookup` returns the inode of the live entry with the name. -/
theorem fsLookup_spec (h : FsInv s held) (nm : CStr) :
    (fsLookup s nm = -1 ∧ ∀ e < direntPerBlock, entryIno s e ≠ 0 → entryName s e ≠ nm) ∨
      ∃ e < direntPerBlock, dirFindSlot s (rootLoad s) nm = some (0, e) ∧ entryIno s e ≠ 0 ∧
        entryName s e = nm ∧ fsLookup s nm = entryIno s e := by
  rcases dirFindSlot_spec h nm with ⟨hnone, hall⟩ | ⟨e, he, hsome, hne, hname⟩
  · refine Or.inl ⟨?_, hall⟩
    rw [fsLookup, if_pos h.base.mounted, hnone]
  · refine Or.inr ⟨e, he, hsome, hne, hname, ?_⟩
    have hlt := (h.dir.entry_ok e he hne).1
    have hino : FsDirent.inode (dirBlock s (rootLoad s) 0) e = entryIno s e :=
      (entryIno_of_ne (SameDir.block_ne_zero hne) e).symm
    rw [fsLookup, if_pos h.base.mounted, hsome]
    simp only [hino]
    exact toInt32_of_lt (by omega)

/-- A name that `fs_lookup` finds belongs to a live file. -/
theorem live_of_fsLookup (h : FsInv s held) (hfound : fsLookup s nm ≠ -1) :
    Live s (fsLookup s nm).toNat ∧ (fsLookup s nm).toNat ≠ 0 ∧
      fsLookup s nm = (fsLookup s nm).toNat := by
  rcases fsLookup_spec h nm with ⟨hnone, -⟩ | ⟨e, he, -, hne, -, heq⟩
  · exact absurd hnone hfound
  · rw [heq, Int.toNat_natCast]
    exact ⟨Or.inr ⟨e, he, rfl, hne⟩, hne, rfl⟩

theorem live_of_fsLookup_eq (h : FsInv s held) {k : ℕ} (hk : fsLookup s nm = k) :
    Live s k ∧ k ≠ 0 := by
  obtain ⟨hlive, hne, -⟩ := live_of_fsLookup h fun hnone ↦ absurd (hnone.symm.trans hk) (by omega)
  rw [hk, Int.toNat_natCast] at hlive hne
  exact ⟨hlive, hne⟩

/-! ### Replacing an entry -/

/-- The state with entry `e` of the directory block replaced. -/
def FsState.withEntry (s : FsState) (e : ℕ) (d : Buf 32) : FsState :=
  s.setCluster ((rootLoad s).block 0) (FsDirent.put (s.cluster ((rootLoad s).block 0)) e d)

theorem entryIno_of_eq (hblk : (rootLoad s).block 0 = 0) (e : ℕ) : entryIno s e = 0 := if_pos hblk

section Entry

variable (h : FsBase s) (hpos : 0 < (rootLoad s).block 0)
  (hlt : (rootLoad s).block 0 < s.blockCount) {e : ℕ} (d : Buf 32)

include h hpos hlt

theorem rootLoad_withEntry : rootLoad (s.withEntry e d) = rootLoad s :=
  rootLoad_setCluster h hpos hlt _

theorem readInode_withEntry {i : ℕ} (hi : i < 256) :
    readInode (s.withEntry e d) i = readInode s i :=
  readInode_setCluster _ h.sbOk hpos hlt hi

theorem dirBlock_withEntry :
    (s.withEntry e d).cluster ((rootLoad (s.withEntry e d)).block 0) =
      FsDirent.put (s.cluster ((rootLoad s).block 0)) e d := by
  rw [rootLoad_withEntry h hpos hlt]
  exact cluster_setCluster_same _ _ _

theorem entryIno_withEntry (e' : ℕ) : entryIno (s.withEntry e d) e' =
    FsDirent.inode (FsDirent.put (s.cluster ((rootLoad s).block 0)) e d) e' := by
  rw [entryIno, dirBlock_withEntry h hpos hlt, rootLoad_withEntry h hpos hlt, if_neg hpos.ne']

theorem entryIno_withEntry_of_ne {e' : ℕ} (hne : e' ≠ e) :
    entryIno (s.withEntry e d) e' = entryIno s e' := by
  rw [entryIno_withEntry h hpos hlt, FsDirent.inode_put_of_ne _ _ hne, entryIno_of_ne hpos.ne']

theorem entryLen_withEntry_of_ne {e' : ℕ} (hne : e' ≠ e) :
    entryLen (s.withEntry e d) e' = entryLen s e' := by
  rw [entryLen, dirBlock_withEntry h hpos hlt, FsDirent.namelen_put_of_ne _ _ hne, entryLen]

theorem entryName_withEntry_of_ne {e' : ℕ} (hne : e' ≠ e) (hlen : entryLen s e' ≤ fsNameMax) :
    entryName (s.withEntry e d) e' = entryName s e' := by
  rw [entryName, dirBlock_withEntry h hpos hlt, FsDirent.name_put_of_ne _ _ hne hlen, entryName]

/-- The entry `dir_add_entry` writes. -/
theorem entry_withEntry_make (he : e < direntPerBlock) {ino : ℕ} (hino : ino < 256)
    (hlen : nm.length ≤ fsNameMax) (type : ℕ) :
    entryIno (s.withEntry e (FsDirent.make ino type nm)) e = ino ∧
      entryLen (s.withEntry e (FsDirent.make ino type nm)) e = nm.length ∧
      entryName (s.withEntry e (FsDirent.make ino type nm)) e = nm := by
  rw [entryIno_withEntry h hpos hlt, entryLen, entryName, dirBlock_withEntry h hpos hlt]
  exact ⟨FsDirent.inode_put_make he (by omega), FsDirent.namelen_put_make he hlen,
    FsDirent.name_put_make he hlen⟩

/-- The entry `fs_unlink` zeroes. -/
theorem entryIno_withEntry_zero (he : e < direntPerBlock) :
    entryIno (s.withEntry e (Buf.zero 32)) e = 0 := by
  rw [entryIno_withEntry h hpos hlt, FsDirent.inode_put_same _ _ he]
  exact Buf.load_zero _ _

/-- The live inodes after an entry was replaced. -/
theorem live_withEntry (he : e < direntPerBlock) (k : ℕ) : Live (s.withEntry e d) k ↔
    k = 0 ∨ (∃ e' < direntPerBlock, e' ≠ e ∧ entryIno s e' = k ∧ k ≠ 0) ∨
      entryIno (s.withEntry e d) e = k ∧ k ≠ 0 := by
  constructor
  · rintro (rfl | ⟨e', he', heq, hk⟩)
    · exact Or.inl rfl
    · by_cases hee : e' = e
      · exact Or.inr (Or.inr ⟨hee ▸ heq, hk⟩)
      · rw [entryIno_withEntry_of_ne h hpos hlt d hee] at heq
        exact Or.inr (Or.inl ⟨e', he', hee, heq, hk⟩)
  · rintro (rfl | ⟨e', he', hee, heq, hk⟩ | ⟨heq, hk⟩)
    · exact Live.root _
    · exact Or.inr ⟨e', he', (entryIno_withEntry_of_ne h hpos hlt d hee).trans heq, hk⟩
    · exact Or.inr ⟨e, he, heq, hk⟩

/-- The directory after an entry was replaced by a free one, or by one that differs from all
others. -/
theorem dirOk_withEntry (hsize : (rootLoad s).size = 0 ↔ (rootLoad s).block 0 = 0)
    (hrest : ∀ j, 0 < j → j < fsMaxBlocks → (rootLoad s).block j = 0)
    (hok : ∀ e' < direntPerBlock, e' ≠ e → entryIno s e' ≠ 0 → entryIno s e' < 256 ∧
      bitGet s.inodeBitmap (entryIno s e') = true ∧ entryLen s e' ≤ fsNameMax)
    (hinj : ∀ e₁ < direntPerBlock, ∀ e₂ < direntPerBlock, e₁ ≠ e → e₂ ≠ e → entryIno s e₁ ≠ 0 →
      entryIno s e₂ ≠ 0 → (entryIno s e₁ = entryIno s e₂ ∨ entryName s e₁ = entryName s e₂) →
      e₁ = e₂)
    (hnew : entryIno (s.withEntry e d) e ≠ 0 →
      (entryIno (s.withEntry e d) e < 256 ∧
        bitGet s.inodeBitmap (entryIno (s.withEntry e d) e) = true ∧
        entryLen (s.withEntry e d) e ≤ fsNameMax) ∧
      ∀ e' < direntPerBlock, e' ≠ e → entryIno s e' ≠ 0 →
        entryIno s e' ≠ entryIno (s.withEntry e d) e ∧
          entryName s e' ≠ entryName (s.withEntry e d) e) :
    DirOk (s.withEntry e d) := by
  have hothers := fun e' (hee : e' ≠ e) ↦ entryIno_withEntry_of_ne h hpos hlt d hee
  refine ⟨?_, ?_, fun e' he' hne ↦ ?_, fun e₁ he₁ e₂ he₂ hne₁ hne₂ heq ↦ ?_⟩
  · rw [rootLoad_withEntry h hpos hlt]
    exact hsize
  · rw [rootLoad_withEntry h hpos hlt]
    exact hrest
  · by_cases hee : e' = e
    · rw [hee] at hne ⊢
      exact (hnew hne).1
    · rw [hothers e' hee] at hne ⊢
      rw [entryLen_withEntry_of_ne h hpos hlt d hee]
      exact hok e' he' hee hne
  · have hnames : ∀ e' < direntPerBlock, e' ≠ e → entryIno s e' ≠ 0 →
        entryName (s.withEntry e d) e' = entryName s e' := fun e' he' hee hne ↦
      entryName_withEntry_of_ne h hpos hlt d hee (hok e' he' hee hne).2.2
    by_cases h₁ : e₁ = e
    · by_cases h₂ : e₂ = e
      · rw [h₁, h₂]
      · rw [h₁] at hne₁ heq
        rw [hothers e₂ h₂] at hne₂ heq
        rw [hnames e₂ he₂ h₂ hne₂] at heq
        obtain ⟨hino, hname⟩ := (hnew hne₁).2 e₂ he₂ h₂ hne₂
        exact absurd heq (not_or.mpr ⟨hino.symm, hname.symm⟩)
    · rw [hothers e₁ h₁] at hne₁ heq
      rw [hnames e₁ he₁ h₁ hne₁] at heq
      by_cases h₂ : e₂ = e
      · rw [h₂] at hne₂ heq
        exact absurd heq (not_or.mpr ((hnew hne₂).2 e₁ he₁ h₁ hne₁))
      · rw [hothers e₂ h₂] at hne₂ heq
        rw [hnames e₂ he₂ h₂ hne₂] at heq
        exact hinj e₁ he₁ e₂ he₂ h₁ h₂ hne₁ hne₂ heq

end Entry

/-! ### The first block of the directory -/

/-- The state in which cluster `c`, zeroed, is the first block of the directory. -/
def FsState.withRootBlock (s : FsState) (c : ℕ) : FsState :=
  writeInode ((s.withClusters (bitSet s.clusterBitmap c)).setCluster c (Buf.zero 512)) 0
    (((rootLoad s).setBlock 0 c).setSize fsBlockSize)

section RootBlock

variable (h : FsBase s) {c : ℕ} (hpos : 0 < c) (hlt : c < s.blockCount)

include h hlt

theorem base_withRootBlock : FsBase (s.withRootBlock c) :=
  ((h.withClusters (length_bitSet s.clusterBitmap c)).setCluster
    (s := s.withClusters _) hlt (Buf.zero 512)).storeInode (by omega : 0 < 256) _

theorem rootLoad_withRootBlock :
    rootLoad (s.withRootBlock c) = ((rootLoad s).setBlock 0 c).setSize fsBlockSize := by
  rw [(base_withRootBlock h hlt).rootLoad_eq, FsState.withRootBlock, readInode_writeInode_same]

theorem block_withRootBlock (k : ℕ) :
    (rootLoad (s.withRootBlock c)).block k = if k = 0 then c else (rootLoad s).block k := by
  rw [rootLoad_withRootBlock h hlt, FsInode.block_setSize, FsInode.block_setBlock _ (by decide),
    Nat.mod_eq_of_lt (hlt.trans_le h.blockCount_le)]

theorem cluster_withRootBlock {k : ℕ} (hk : 0 < k) (hkc : k < s.blockCount) :
    (s.withRootBlock c).cluster k = if k = c then Buf.zero 512 else s.cluster k := by
  have hbase := h.withClusters (length_bitSet s.clusterBitmap c)
  rw [FsState.withRootBlock, cluster_writeInode _
    (hbase.setCluster (s := s.withClusters _) hlt (Buf.zero 512)).sbOk (by omega) hk hkc]
  split_ifs with hkc'
  · rw [hkc', cluster_setCluster_same]
  · rw [cluster_setCluster_of_ne _ hbase.sbOk hlt hkc hkc']
    rfl

theorem diskBitmap_withRootBlock : (s.withRootBlock c).diskBitmap = s.diskBitmap := by
  have hbase := h.withClusters (length_bitSet s.clusterBitmap c)
  rw [FsState.withRootBlock, diskBitmap_writeInode _
    (hbase.setCluster (s := s.withClusters _) hlt (Buf.zero 512)).sbOk (by omega),
    diskBitmap_setCluster _ hbase.sbOk hlt]
  rfl

include hpos

theorem readInode_withRootBlock {i : ℕ} (hi : i < 256) (hne : i ≠ 0) :
    readInode (s.withRootBlock c) i = readInode s i := by
  have hbase := h.withClusters (length_bitSet s.clusterBitmap c)
  rw [FsState.withRootBlock, readInode_writeInode_of_ne _
    (hbase.setCluster (s := s.withClusters _) hlt (Buf.zero 512)).sbOk (by omega) hi hne,
    readInode_setCluster _ hbase.sbOk hpos hlt hi]
  rfl

theorem entryIno_withRootBlock (e : ℕ) : entryIno (s.withRootBlock c) e = 0 := by
  have hblk : (rootLoad (s.withRootBlock c)).block 0 = c := by
    rw [block_withRootBlock h hlt, if_pos rfl]
  rw [entryIno_of_ne (by rw [hblk]; omega), hblk, cluster_withRootBlock h hlt hpos hlt,
    if_pos rfl]
  exact FsDirent.inode_zero e

end RootBlock

/-- The directory gets its first block. -/
structure NewRootBlock (s t : FsState) (held : Finset ℕ) : Prop where
  inv : FsInv t held
  before : (rootLoad s).block 0 = 0
  after : (rootLoad t).block 0 ≠ 0
  size : (rootLoad t).size = fsBlockSize
  empty : ∀ e, entryIno t e = 0
  inodes : ∀ i < 256, i ≠ 0 → readInode t i = readInode s i
  inodeBitmap : t.inodeBitmap = s.inodeBitmap
  diskBitmap : t.diskBitmap = s.diskBitmap
  count : freeClusters t + 1 = freeClusters s

theorem live_iff_of_empty (hempty : ∀ e, entryIno s e = 0) (i : ℕ) : Live s i ↔ i = 0 := by
  constructor
  · rintro (rfl | ⟨e, -, rfl, hne⟩)
    · rfl
    · exact hempty e
  · exact Or.inl

/-- The root inode is the only live one, and it has taken a free cluster. -/
theorem FsInv.withRootBlock (h : FsInv s held) (hblk : (rootLoad s).block 0 = 0) {c : ℕ}
    (hpos : 0 < c) (hlt : c < s.blockCount) (hclear : bitGet s.clusterBitmap c = false) :
    FsInv (s.withRootBlock c) held := by
  have hbase := base_withRootBlock h.base hlt
  have hempty := entryIno_withRootBlock h.base hpos hlt
  have hblock := block_withRootBlock h.base hlt
  have hlive : Live (s.withRootBlock c) = Live s := funext fun i ↦ propext <| by
    rw [live_iff_of_empty hempty, live_iff_of_empty (entryIno_of_eq hblk)]
  have hrest : ∀ j, 0 < j → j < fsMaxBlocks → (rootLoad (s.withRootBlock c)).block j = 0 :=
    fun j hjpos hj ↦ by rw [hblock, if_neg (by omega), h.dir.root_rest j hjpos hj]
  have hfresh : ¬ Marked s c := fun hmarked ↦ by
    have hbit := hmarked.2.2
    rw [hclear] at hbit
    exact Bool.false_ne_true hbit
  have hmarks := marked_bitSet h.base hlt
  refine ⟨hbase, ⟨?_, hrest, ?_, ?_⟩, h.root_bit, ?_, ?_, ?_⟩
  · rw [hblock, if_pos rfl, rootLoad_withRootBlock h.base hlt, FsInode.size_setSize]
    exact iff_of_false (by decide) (by omega)
  · exact fun e _ hne ↦ absurd (hempty e) hne
  · exact fun e _ e' _ hne ↦ absurd (hempty e) hne
  · exact fun j ↦ by rw [hbase.rootLoad_eq]
  · intro i hi j hj hne
    rw [hlive, live_iff_of_empty (entryIno_of_eq hblk)] at hi
    rw [hi, ← hbase.rootLoad_eq, hrest (j + 1) (by omega) hj] at hne
    exact absurd rfl hne
  · rw [hlive]
    refine h.own.take (o := .slot 0 0) hfresh (fun o k ho ↦ ?_)
      (fun k hk ↦ (hmarks k).mpr (Or.inl hk)) ((hmarks c).mpr (Or.inr ⟨hpos, rfl⟩))
    cases o with
    | held a => exact Or.inl (ownerOf_held.mpr (ownerOf_held.mp ho))
    | slot i j =>
      obtain ⟨hi, hj, hne, heq⟩ := ownerOf_slot.mp ho
      obtain rfl := (live_iff_of_empty (entryIno_of_eq hblk) i).mp hi
      rw [← hbase.rootLoad_eq] at hne heq
      rcases Nat.eq_zero_or_pos j with rfl | hjpos
      · exact Or.inr ⟨rfl, by rw [← heq, hblock, if_pos rfl]⟩
      · exact absurd (hrest j hjpos hj) hne

/-- The first block of the directory: a fresh cluster, zeroed and stored in the root inode. -/
theorem newRootBlock (h : FsInv s held) (hblk : (rootLoad s).block 0 = 0) {c : ℕ}
    (hfirst : firstClear s.clusterBitmap 1 s.blockCount = some c) :
    NewRootBlock s (s.withRootBlock c) held := by
  obtain ⟨hpos, hlt, hclear⟩ := firstClear_eq_some hfirst
  refine ⟨h.withRootBlock hblk hpos hlt hclear, hblk, ?_, ?_,
    entryIno_withRootBlock h.base hpos hlt,
    fun i hi hne ↦ readInode_withRootBlock h.base hpos hlt hi hne, rfl,
    diskBitmap_withRootBlock h.base hlt,
    clearCount_bitSet hpos hlt (h.base.cluster_lt_bitLen hlt) hclear⟩
  · rw [block_withRootBlock h.base hlt, if_pos rfl]
    exact (Nat.pos_iff_ne_zero.mp hpos)
  · rw [rootLoad_withRootBlock h.base hlt, FsInode.size_setSize]
    rfl

/-- The three exits of `root_ensure_block`. -/
theorem rootEnsureBlock_spec (h : FsInv s held) :
    (rootEnsureBlock s (rootLoad s) = (none, s) ∧ (rootLoad s).block 0 = 0 ∧
        freeClusters s = 0) ∨
      (rootEnsureBlock s (rootLoad s) = (some (rootLoad s), s) ∧ (rootLoad s).block 0 ≠ 0) ∨
      ∃ c, rootEnsureBlock s (rootLoad s) =
          (some (rootLoad (s.withRootBlock c)), s.withRootBlock c) ∧
        (rootLoad s).block 0 = 0 ∧ firstClear s.clusterBitmap 1 s.blockCount = some c := by
  by_cases hblk : (rootLoad s).block 0 = 0
  · have hsize := h.dir.root_size.mpr hblk
    have hle : ¬ (rootLoad s).size > 0 := by omega
    rcases halloc : fsAllocCluster s with - | ⟨c, s₁⟩
    · refine Or.inl ⟨by simp only [rootEnsureBlock, hle, if_false, halloc], hblk, ?_⟩
      rw [fsAllocCluster, if_pos h.base.mounted, Option.map_eq_none_iff] at halloc
      exact firstClear_eq_none halloc
    · obtain ⟨hfirst, rfl⟩ := fsAllocCluster_eq_some h.base.mounted halloc
      obtain ⟨-, hlt, -⟩ := firstClear_eq_some hfirst
      refine Or.inr (Or.inr ⟨c, ?_, hblk, hfirst⟩)
      have hwrite : fsClusterWrite (s.withClusters (bitSet s.clusterBitmap c)) c (Buf.zero 512) =
          some ((s.withClusters (bitSet s.clusterBitmap c)).setCluster c (Buf.zero 512)) :=
        fsClusterWrite_of_lt (s := s.withClusters (bitSet s.clusterBitmap c)) hlt (Buf.zero 512)
      have hzero : ((s.withClusters (bitSet s.clusterBitmap c)).setCluster c
          (Buf.zero 512)).rootInode = 0 := h.base.sbOk.rootInode
      rw [rootLoad_withRootBlock h.base hlt]
      simp only [rootEnsureBlock, hle, if_false, halloc, hwrite, hzero]
      rfl
  · have hsize : (rootLoad s).size > 0 :=
      Nat.pos_of_ne_zero fun hzero ↦ hblk (h.dir.root_size.mp hzero)
    exact Or.inr (Or.inl ⟨by simp only [rootEnsureBlock, hsize, if_true], hblk⟩)

/-! ### Adding an entry -/

/-- Writing a live entry for a marked inode without blocks into a free slot of the directory. -/
theorem putEntry_spec (h : FsInv s held) (hblk : (rootLoad s).block 0 ≠ 0) {e ino : ℕ} (type : ℕ)
    (he : e < direntPerBlock) (hfree : entryIno s e = 0) (hne : ino ≠ 0) (hino : ino < 256)
    (hbit : bitGet s.inodeBitmap ino = true) (hnot : ¬ Live s ino)
    (hzero : ∀ j, (readInode s ino).block j = 0) (hlen : nm.length ≤ fsNameMax)
    (hname : ∀ e' < direntPerBlock, entryIno s e' ≠ 0 → entryName s e' ≠ nm) :
    FsInv (s.withEntry e (FsDirent.make ino type nm)) held ∧
      ∀ k, Live (s.withEntry e (FsDirent.make ino type nm)) k ↔ Live s k ∨ k = ino := by
  obtain ⟨hpos, hlt, -⟩ := FsInvOn.dir_marked h hblk
  set d := FsDirent.make ino type nm with hd
  obtain ⟨hself, hselfLen, hselfName⟩ :=
    entry_withEntry_make h.base hpos hlt he hino hlen type
  rw [← hd] at hself hselfLen hselfName
  have hroot := rootLoad_withEntry h.base hpos hlt (e := e) d
  have hread : ∀ i < 256, readInode (s.withEntry e d) i = readInode s i := fun i hi ↦
    readInode_withEntry h.base hpos hlt d hi
  have hlive : ∀ k, Live (s.withEntry e d) k ↔ Live s k ∨ k = ino := by
    intro k
    rw [live_withEntry h.base hpos hlt d he, hself]
    constructor
    · rintro (rfl | ⟨e', he', -, heq, hk⟩ | ⟨heq, -⟩)
      · exact Or.inl (Live.root s)
      · exact Or.inl (Or.inr ⟨e', he', heq, hk⟩)
      · exact Or.inr heq.symm
    · rintro ((rfl | ⟨e', he', heq, hk⟩) | rfl)
      · exact Or.inl rfl
      · exact Or.inr (Or.inl ⟨e', he', fun hee ↦ hk (by rw [← heq, hee, hfree]), heq, hk⟩)
      · exact Or.inr (Or.inr ⟨rfl, hne⟩)
  refine ⟨⟨h.base.setCluster hlt _, ?_, h.root_bit, ?_, ?_, ?_⟩, hlive⟩
  · refine dirOk_withEntry h.base hpos hlt d h.dir.root_size h.dir.root_rest
      (fun e' he' _ hne' ↦ h.dir.entry_ok e' he' hne')
      (fun e₁ he₁ e₂ he₂ _ _ hne₁ hne₂ heq ↦ h.dir.entry_inj e₁ he₁ e₂ he₂ hne₁ hne₂ heq)
      fun _ ↦ ?_
    rw [hself, hselfLen, hselfName]
    exact ⟨⟨hino, hbit, hlen⟩, fun e' he' _ hne' ↦
      ⟨fun heq ↦ hnot (Or.inr ⟨e', he', heq, hne⟩), hname e' he' hne'⟩⟩
  · intro j
    rw [hroot, hread 0 (by omega), h.base.rootLoad_eq]
  · intro k hk j hj hz
    rcases (hlive k).mp hk with hold | rfl
    · rw [hread k (h.dir.live_lt hold)] at hz ⊢
      exact h.slots_pre k hold j hj hz
    · rw [hread k hino, hzero] at hz
      exact absurd rfl hz
  · refine h.own.mono (fun o c ho ↦ ?_) fun c hc ↦ hc
    cases o with
    | held a => exact ownerOf_held.mpr (ownerOf_held.mp ho)
    | slot k j =>
      obtain ⟨hk, hj, hz, heq⟩ := ownerOf_slot.mp ho
      rcases (hlive k).mp hk with hold | rfl
      · rw [hread k (h.dir.live_lt hold)] at hz heq
        exact ownerOf_slot.mpr ⟨hold, hj, hz, heq⟩
      · rw [hread k hino, hzero] at hz
        exact absurd rfl hz

/-- The exits of `dir_add_entry`: three that change nothing, an entry in the block of the directory,
and an entry in its first block. -/
inductive AddExit (s : FsState) (nm : CStr) (ino type : ℕ) : Bool → FsState → Prop
  | badName (hname : nm.length = 0 ∨ fsNameMax < nm.length) : AddExit s nm ino type false s
  | noCluster (hname : nm.length ≠ 0 ∧ nm.length ≤ fsNameMax) (hblk : (rootLoad s).block 0 = 0)
      (hfull : freeClusters s = 0) : AddExit s nm ino type false s
  | dirFull (hname : nm.length ≠ 0 ∧ nm.length ≤ fsNameMax) (hblk : (rootLoad s).block 0 ≠ 0)
      (hfull : ∀ e < direntPerBlock, entryIno s e ≠ 0) : AddExit s nm ino type false s
  | entry {e : ℕ} (hname : nm.length ≠ 0 ∧ nm.length ≤ fsNameMax)
      (hblk : (rootLoad s).block 0 ≠ 0) (he : e < direntPerBlock) (hfree : entryIno s e = 0) :
      AddExit s nm ino type true (s.withEntry e (FsDirent.make ino type nm))
  | first {e c : ℕ} (hname : nm.length ≠ 0 ∧ nm.length ≤ fsNameMax)
      (hblk : (rootLoad s).block 0 = 0)
      (hfirst : firstClear s.clusterBitmap 1 s.blockCount = some c) (he : e < direntPerBlock) :
      AddExit s nm ino type true ((s.withRootBlock c).withEntry e (FsDirent.make ino type nm))

/-- The entry goes into the first free slot of the directory block, if it has one. -/
theorem addEntry_block (h : FsInv s held) (hblk : (rootLoad s).block 0 ≠ 0) (d : Buf 32) :
    (dirScan s (rootLoad s) FsDirent.isFree (List.range fsMaxBlocks) = none ∧
        ∀ e < direntPerBlock, entryIno s e ≠ 0) ∨
      ∃ e < direntPerBlock, entryIno s e = 0 ∧
        dirScan s (rootLoad s) FsDirent.isFree (List.range fsMaxBlocks) = some (0, e) ∧
        fsClusterWrite s ((rootLoad s).block 0) (FsDirent.put (dirBlock s (rootLoad s) 0) e d) =
          some (s.withEntry e d) := by
  obtain ⟨-, hlt, -⟩ := FsInvOn.dir_marked h hblk
  rw [dirScan_eq FsDirent.isFree hblk hlt (h.dir.root_rest 1 (by omega) (by decide))]
  rcases hfind : (List.range direntPerBlock).find?
    (FsDirent.isFree (s.cluster ((rootLoad s).block 0))) with - | e
  · refine Or.inl ⟨rfl, fun e he ↦ ?_⟩
    have hused := List.find?_eq_none.mp hfind e (List.mem_range.mpr he)
    rw [entryIno_of_ne hblk]
    simpa only [FsDirent.isFree, decide_eq_true_eq] using hused
  · have hfree := List.find?_some hfind
    simp only [FsDirent.isFree, decide_eq_true_eq, ← entryIno_of_ne hblk] at hfree
    exact Or.inr ⟨e, List.mem_range.mp (List.mem_of_find?_eq_some hfind), hfree, rfl,
      fsClusterWrite_of_lt hlt _⟩

theorem dirAddEntry_exit (h : FsInv s held) (nm : CStr) (ino type : ℕ) :
    AddExit s nm ino type (dirAddEntry s nm ino type).1 (dirAddEntry s nm ino type).2 := by
  by_cases hbad : nm.length = 0 ∨ nm.length > fsNameMax
  · rw [dirAddEntry, if_pos hbad]
    exact .badName hbad
  have hname : nm.length ≠ 0 ∧ nm.length ≤ fsNameMax := by omega
  rw [dirAddEntry, if_neg hbad]
  rcases rootEnsureBlock_spec h with ⟨heq, hblk, hfull⟩ | ⟨heq, hblk⟩ | ⟨c, heq, hblk, hfirst⟩
  · rw [heq]
    exact .noCluster hname hblk hfull
  · rw [heq]
    rcases addEntry_block h hblk (FsDirent.make ino type nm) with
      ⟨hscan, hfull⟩ | ⟨e, he, hfree, hscan, hwrite⟩
    · simp only [hscan]
      exact .dirFull hname hblk hfull
    · simp only [hscan, hwrite]
      exact .entry hname hblk he hfree
  · -- the directory has just got its block, so the first entry is free
    rw [heq]
    have hnew := newRootBlock h hblk hfirst
    rcases addEntry_block hnew.inv hnew.after (FsDirent.make ino type nm) with
      ⟨-, hfull⟩ | ⟨e, he, -, hscan, hwrite⟩
    · exact absurd (hnew.empty 0) (hfull 0 (by decide))
    · simp only [hscan, hwrite]
      exact .first hname hblk hfirst he

/-- The root inode after an entry was added: the one before, or one with its first block. -/
def RootStep (s t : FsState) : Prop :=
  (readInode t 0 = readInode s 0 ∧ freeClusters t = freeClusters s) ∨
    ((rootLoad s).block 0 = 0 ∧ (rootLoad t).block 0 ≠ 0 ∧ (rootLoad t).size = fsBlockSize ∧
      freeClusters t + 1 = freeClusters s)

/-- What `dir_add_entry` does with a marked inode that is not live yet. -/
structure AddSpec (s : FsState) (held : Finset ℕ) (nm : CStr) (ino : ℕ) (ok : Bool)
    (t : FsState) : Prop where
  inv : FsInv t held
  diskBitmap : t.diskBitmap = s.diskBitmap
  failed : ok = false → t = s
  name_ok : ok = true → nm.length ≠ 0 ∧ nm.length ≤ fsNameMax
  added : ok = true → (∀ k, Live t k ↔ Live s k ∨ k = ino) ∧
    (∀ k < 256, k ≠ 0 → readInode t k = readInode s k) ∧ RootStep s t

theorem AddSpec.of_unchanged (h : FsInv s held) (nm : CStr) (ino : ℕ) :
    AddSpec s held nm ino false s where
  inv := h
  diskBitmap := rfl
  failed _ := rfl
  name_ok hfalse := absurd hfalse Bool.false_ne_true
  added hfalse := absurd hfalse Bool.false_ne_true

theorem dirAddEntry_spec (h : FsInv s held) (nm : CStr) {ino : ℕ} (type : ℕ) (hne : ino ≠ 0)
    (hino : ino < 256) (hbit : bitGet s.inodeBitmap ino = true) (hnot : ¬ Live s ino)
    (hzero : ∀ j, (readInode s ino).block j = 0)
    (hname : ∀ e' < direntPerBlock, entryIno s e' ≠ 0 → entryName s e' ≠ nm) :
    AddSpec s held nm ino (dirAddEntry s nm ino type).1 (dirAddEntry s nm ino type).2 := by
  have hexit := dirAddEntry_exit h nm ino type
  revert hexit
  generalize (dirAddEntry s nm ino type).1 = ok, (dirAddEntry s nm ino type).2 = t
  intro hexit
  have htrue : ∀ {p : Prop}, true = false → p := fun hf ↦ absurd hf.symm Bool.false_ne_true
  cases hexit with
  | badName => exact .of_unchanged h nm ino
  | noCluster => exact .of_unchanged h nm ino
  | dirFull => exact .of_unchanged h nm ino
  | entry hlen hblk he hfree =>
    obtain ⟨hinv, hlive⟩ := putEntry_spec h hblk type he hfree hne hino hbit hnot hzero hlen.2 hname
    obtain ⟨hpos, hlt, -⟩ := FsInvOn.dir_marked h hblk
    exact ⟨hinv, diskBitmap_setCluster _ h.base.sbOk hlt, htrue, fun _ ↦ hlen,
      fun _ ↦ ⟨hlive, fun k hk _ ↦ readInode_withEntry h.base hpos hlt _ hk,
        Or.inl ⟨readInode_withEntry h.base hpos hlt _ (by omega), rfl⟩⟩⟩
  | first hlen hblk hfirst he =>
    have hnew := newRootBlock h hblk hfirst
    have hlive₀ : ∀ k, Live (s.withRootBlock _) k ↔ Live s k := fun k ↦ by
      rw [live_iff_of_empty hnew.empty, live_iff_of_empty (entryIno_of_eq hblk)]
    obtain ⟨hinv, hlive⟩ := putEntry_spec hnew.inv hnew.after type he (hnew.empty _) hne hino
      (by rw [hnew.inodeBitmap]; exact hbit) (by rwa [hlive₀])
      (fun j ↦ by rw [hnew.inodes ino hino hne]; exact hzero j) hlen.2
      fun e' _ hused ↦ absurd (hnew.empty e') hused
    obtain ⟨hpos, hlt, -⟩ := FsInvOn.dir_marked hnew.inv hnew.after
    refine ⟨hinv, (diskBitmap_setCluster _ hnew.inv.base.sbOk hlt).trans hnew.diskBitmap, htrue,
      fun _ ↦ hlen, fun _ ↦ ⟨fun k ↦ by rw [hlive, hlive₀], fun k hk hkne ↦ ?_, Or.inr ?_⟩⟩
    · rw [readInode_withEntry hnew.inv.base hpos hlt _ hk, hnew.inodes k hk hkne]
    · rw [rootLoad_withEntry hnew.inv.base hpos hlt]
      exact ⟨hblk, hnew.after, hnew.size, hnew.count⟩

/-! ### `fs_create` -/

/-- What `fs_create` does. -/
structure CreateSpec (s : FsState) (held : Finset ℕ) (nm : CStr) (r : ℤ) (t : FsState) : Prop where
  inv : FsInv t held
  diskBitmap : t.diskBitmap = s.diskBitmap
  failed : r < 0 → r = -1 ∧ ∀ k, Live t k → Kept s t k
  name_ok : 0 ≤ r → nm.length ≠ 0 ∧ nm.length ≤ fsNameMax
  root : RootStep s t ∧ (r < 0 → readInode t 0 = readInode s 0)
  created : 0 ≤ r → Live t r.toNat ∧ r.toNat ≠ 0 ∧ r = r.toNat ∧ (readInode t r.toNat).size = 0 ∧
    (∀ j, (readInode t r.toNat).block j = 0) ∧
    ∀ k, Live t k → k ≠ 0 → k ≠ r.toNat → Kept s t k

theorem size_newInode (mode ticks : ℕ) : (newInode mode ticks).size = 0 := by
  simp only [newInode, FsInode.size_setMtime, FsInode.size_setNlinks, FsInode.size_setMode,
    FsInode.size_zero]

theorem block_newInode (mode ticks j : ℕ) : (newInode mode ticks).block j = 0 := by
  simp only [newInode, FsInode.block_setMtime, FsInode.block_setNlinks, FsInode.block_setMode,
    FsInode.block_zero]

/-- `fs_alloc_inode` marks an inode that is not live; the inode is then written. -/
theorem allocInode_spec (h : FsInv s held) {ino : ℕ} {s₁ : FsState}
    (halloc : fsAllocInode s = some (ino, s₁)) (mode ticks : ℕ) :
    FsInv (writeInode s₁ ino (newInode mode ticks)) held ∧
      SameDir s (writeInode s₁ ino (newInode mode ticks)) ∧
      (writeInode s₁ ino (newInode mode ticks)).diskBitmap = s.diskBitmap ∧
      freeClusters (writeInode s₁ ino (newInode mode ticks)) = freeClusters s ∧
      bitGet s₁.inodeBitmap ino = true ∧ ino ≠ 0 ∧ ino < 256 ∧ ¬ Live s ino ∧
      ∀ k < 256, k ≠ ino → readInode (writeInode s₁ ino (newInode mode ticks)) k =
        readInode s k := by
  rw [fsAllocInode, Option.map_eq_some_iff] at halloc
  obtain ⟨i, hfirst, heq⟩ := halloc
  obtain ⟨rfl, rfl⟩ := Prod.mk.injEq .. ▸ heq
  obtain ⟨hpos, hlt, hclear⟩ := firstClear_eq_some hfirst
  have hcount : FsSb.inodeCount s.sb = 256 := h.base.sbOk.inodeCount
  rw [FsState.inodeCount, hcount] at hlt
  have hlen := h.base.inode_lt_bitLen hlt
  have hnot : ¬ Live s i := fun hlive ↦ by
    have hbit := FsInvOn.live_bit h hlive
    rw [hclear] at hbit
    exact Bool.false_ne_true hbit
  have hbase : FsBase { s with inodeBitmap := bitSet s.inodeBitmap i } :=
    ⟨h.base.sbOk, h.base.valid, h.base.copy0, h.base.copy1, h.base.mounted, h.base.clusterLen,
      (length_bitSet _ _).trans h.base.inodeLen⟩
  have hmark : SameDir s { s with inodeBitmap := bitSet s.inodeBitmap i } :=
    ⟨rfl, fun _ ↦ rfl⟩
  have hinv : FsInv { s with inodeBitmap := bitSet s.inodeBitmap i } held :=
    FsInvOn.transport_same h hbase hmark
      (fun k hbit ↦ by rw [bitGet_bitSet hlen, hbit, Bool.or_true]) (fun _ hk ↦ hk)
      fun _ _ _ ↦ rfl
  have hon := hinv.onSlotsWith (x := newInode mode ticks) fun hlive : Live s i ↦ absurd hlive hnot
  refine ⟨hon.storeInode hlt (by omega) fun _ ↦ rfl,
    hmark.trans (sameDir_writeInode hinv hlt (by omega) _), diskBitmap_writeInode _ hbase.sbOk hlt, rfl, ?_,
    by omega, hlt, hnot, fun k hk hne ↦ readInode_writeInode_of_ne _ hbase.sbOk hlt hk hne⟩
  rw [bitGet_bitSet hlen, decide_eq_true rfl, Bool.true_or]

/-- A call of `fs_create` that stops before it allocates. -/
theorem CreateSpec.of_unchanged (h : FsInv s held) : CreateSpec s held nm (-1) s where
  inv := h
  diskBitmap := rfl
  failed _ := ⟨rfl, fun _ hk ↦ ⟨hk, rfl⟩⟩
  name_ok hr := absurd hr (by decide)
  root := ⟨Or.inl ⟨rfl, rfl⟩, fun _ ↦ rfl⟩
  created hr := absurd hr (by decide)

theorem fsCreate_spec (h : FsInv s held) (nm : CStr) (mode ticks : ℕ) :
    CreateSpec s held nm (fsCreate s nm mode ticks).1 (fsCreate s nm mode ticks).2 := by
  have hmounted : (!s.mounted) = false := by rw [h.base.mounted]; rfl
  rw [fsCreate, hmounted, if_neg Bool.false_ne_true]
  by_cases hfound : fsLookup s nm ≥ 0
  · rw [if_pos hfound]
    exact CreateSpec.of_unchanged h
  rw [if_neg hfound]
  have hname : ∀ e < direntPerBlock, entryIno s e ≠ 0 → entryName s e ≠ nm := by
    rcases fsLookup_spec h nm with ⟨-, hall⟩ | ⟨e, -, -, -, -, heq⟩
    · exact hall
    · exact absurd (by rw [heq]; exact Int.natCast_nonneg _) hfound
  rcases halloc : fsAllocInode s with - | ⟨ino, s₁⟩
  · exact CreateSpec.of_unchanged h
  obtain ⟨hinv, hsame, hdisk, hcount, hbit, hne, hino, hnot, hread⟩ :=
    allocInode_spec h halloc mode ticks
  have hself := readInode_writeInode_same (newInode mode ticks) s₁ ino
  have hspec := dirAddEntry_spec hinv nm (if mode = fsInodeDir then 2 else 1) hne hino hbit
    (by rwa [hsame.live]) (fun j ↦ by rw [hself, block_newInode])
    (fun e he hlive ↦ by
      rw [hsame.entryIno] at hlive
      rw [hsame.entryName hlive]
      exact hname e he hlive)
  rcases hadd : dirAddEntry (writeInode s₁ ino (newInode mode ticks)) nm ino
    (if mode = fsInodeDir then 2 else 1) with ⟨- | -, t⟩
  · rw [hadd] at hspec
    simp only [hadd]
    obtain rfl := hspec.failed rfl
    have hroot := hread 0 (by omega) (Ne.symm hne)
    refine ⟨hinv, hdisk, fun _ ↦ ⟨rfl, fun k hk ↦ ?_⟩, fun hr ↦ absurd hr (by decide),
      ⟨Or.inl ⟨hroot, hcount⟩, fun _ ↦ hroot⟩, fun hr ↦ absurd hr (by decide)⟩
    have hlive := (hsame.live k).mp hk
    exact ⟨hlive, hread k (h.dir.live_lt hlive) fun heq ↦ hnot (heq ▸ hlive)⟩
  · rw [hadd] at hspec
    simp only [hadd]
    obtain ⟨hlive, hreads, hroot⟩ := hspec.added rfl
    have hnonneg : ¬ (ino : ℤ) < 0 := by omega
    refine ⟨hspec.inv, hspec.diskBitmap.trans hdisk, fun hr ↦ absurd hr hnonneg,
      fun _ ↦ hspec.name_ok rfl, ⟨?_, fun hr ↦ absurd hr hnonneg⟩, fun _ ↦ ?_⟩
    · rcases hroot with ⟨hsameRoot, hc⟩ | ⟨hbefore, hafter, hsize, hc⟩
      · exact Or.inl ⟨hsameRoot.trans (hread 0 (by omega) (Ne.symm hne)), hc.trans hcount⟩
      · exact Or.inr ⟨by rw [← hsame.root]; exact hbefore, hafter, hsize, hc.trans hcount⟩
    · rw [Int.toNat_natCast, hreads ino hino hne, hself]
      refine ⟨(hlive ino).mpr (Or.inr rfl), hne, rfl, size_newInode _ _, block_newInode _ _,
        fun k hk hkne hkino ↦ ?_⟩
      rcases (hlive k).mp hk with hold | rfl
      · have hklive := (hsame.live k).mp hold
        have hklt := h.dir.live_lt hklive
        exact ⟨hklive, (hreads k hklt hkne).trans (hread k hklt hkino)⟩
      · exact absurd rfl hkino

/-! ### `fs_unlink` -/

/-- What `fs_unlink` does. -/
structure UnlinkSpec (s : FsState) (held : Finset ℕ) (ok : Bool) (t : FsState) : Prop where
  inv : FsInv t held
  diskBitmap : t.diskBitmap = s.diskBitmap
  failed : ok = false → t = s
  kept : ∀ k, Live t k → Kept s t k

/-- The state in which `fs_unlink` has freed the blocks and the inode, and the entry is still
there. -/
def unlinkInode (s : FsState) (ino : ℕ) : FsState :=
  let s := writeInode (freeAll s (readInode s ino)) ino FsInode.zero
  { s with inodeBitmap := bitClr s.inodeBitmap ino }

/-- The RAM bitmap without the marks of an inode's clusters. -/
def clearedClusters (s : FsState) (ino : ℕ) : List Byte :=
  (slotClusters (readInode s ino) (List.range fsMaxBlocks)).foldl bitClr s.clusterBitmap

/-- The state with another inode bitmap. -/
def FsState.withInodes (s : FsState) (bm : List Byte) : FsState := { s with inodeBitmap := bm }

theorem readInode_withInodes (s : FsState) (bm : List Byte) (k : ℕ) :
    readInode (s.withInodes bm) k = readInode s k := rfl

theorem cluster_withInodes (s : FsState) (bm : List Byte) (c : ℕ) :
    (s.withInodes bm).cluster c = s.cluster c := rfl

theorem diskBitmap_withInodes (s : FsState) (bm : List Byte) :
    (s.withInodes bm).diskBitmap = s.diskBitmap := rfl

theorem marked_withInodes (s : FsState) (bm : List Byte) (c : ℕ) :
    Marked (s.withInodes bm) c ↔ Marked s c := Iff.rfl

theorem marked_writeInode (s : FsState) (ino : ℕ) (x : FsInode) (c : ℕ) :
    Marked (writeInode s ino x) c ↔ Marked s c := Iff.rfl

theorem marked_setCluster (s : FsState) (d : ℕ) (buf : Block) (c : ℕ) :
    Marked (s.setCluster d buf) c ↔ Marked s c := Iff.rfl

theorem FsBase.withInodes (h : FsBase s) {bm : List Byte} (hlen : bm.length = 32) :
    FsBase (s.withInodes bm) :=
  ⟨h.sbOk, h.valid, h.copy0, h.copy1, h.mounted, h.clusterLen, hlen⟩

section Unlink

variable (h : FsInv s held) {ino : ℕ} (hlive : Live s ino)

include h hlive

theorem unlinkInode_eq : unlinkInode s ino =
    (writeInode (s.withClusters (clearedClusters s ino)) ino FsInode.zero).withInodes
      (bitClr s.inodeBitmap ino) := by
  have hfree : freeAll s (readInode s ino) = s.withClusters (clearedClusters s ino) :=
    freeAll_eq fun _ hj hz ↦ (FsInvOn.slot_marked h hlive hj hz).2.1
  rw [unlinkInode, hfree]
  rfl

/-- Clearing the marks of an inode's clusters keeps the marks of all others. -/
theorem clearedClusters_spec : (clearedClusters s ino).length = s.clusterBitmap.length ∧
    ∀ k, Marked s k → Marked (s.withClusters (clearedClusters s ino)) k ∨
      ∃ j < fsMaxBlocks, (readInode s ino).block j = k := by
  obtain ⟨hlen, hbits⟩ := clear_bits s.clusterBitmap
    (slotClusters (readInode s ino) (List.range fsMaxBlocks)) fun c hc ↦ by
      obtain ⟨hz, j, hj, rfl⟩ := mem_slotClusters.mp hc
      exact h.base.cluster_lt_bitLen
        (FsInvOn.slot_marked h hlive (List.mem_range.mp hj) hz).2.1
  refine ⟨hlen, fun k hk ↦ ?_⟩
  by_cases hmem : k ∈ slotClusters (readInode s ino) (List.range fsMaxBlocks)
  · obtain ⟨-, j, hj, heq⟩ := mem_slotClusters.mp hmem
    exact Or.inr ⟨j, List.mem_range.mp hj, heq⟩
  · exact Or.inl ⟨hk.1, hk.2.1, (hbits k).mpr ⟨hk.2.2, hmem⟩⟩

theorem base_unlinkInode : FsBase (unlinkInode s ino) := by
  rw [unlinkInode_eq h hlive]
  exact ((h.base.withClusters (clearedClusters_spec h hlive).1).storeInode
    (h.dir.live_lt hlive) FsInode.zero).withInodes ((length_bitClr _ _).trans h.base.inodeLen)

theorem readInode_unlinkInode {k : ℕ} (hk : k < 256) (hkne : k ≠ ino) :
    readInode (unlinkInode s ino) k = readInode s k := by
  have hbase := h.base.withClusters (clearedClusters_spec h hlive).1
  rw [unlinkInode_eq h hlive, readInode_withInodes,
    readInode_writeInode_of_ne FsInode.zero hbase.sbOk (h.dir.live_lt hlive) hk hkne]
  rfl

theorem cluster_unlinkInode {c : ℕ} (hpos : 0 < c) (hc : c < s.blockCount) :
    (unlinkInode s ino).cluster c = s.cluster c := by
  have hbase := h.base.withClusters (clearedClusters_spec h hlive).1
  rw [unlinkInode_eq h hlive, cluster_withInodes,
    cluster_writeInode FsInode.zero hbase.sbOk (h.dir.live_lt hlive) hpos hc]
  rfl

theorem diskBitmap_unlinkInode : (unlinkInode s ino).diskBitmap = s.diskBitmap := by
  have hbase := h.base.withClusters (clearedClusters_spec h hlive).1
  rw [unlinkInode_eq h hlive, diskBitmap_withInodes,
    diskBitmap_writeInode FsInode.zero hbase.sbOk (h.dir.live_lt hlive)]
  rfl

theorem blockCount_unlinkInode : (unlinkInode s ino).blockCount = s.blockCount := by
  rw [unlinkInode_eq h hlive]
  rfl

theorem marked_unlinkInode {k : ℕ} (hk : Marked s k) :
    Marked (unlinkInode s ino) k ∨ ∃ j < fsMaxBlocks, (readInode s ino).block j = k := by
  rw [unlinkInode_eq h hlive, marked_withInodes, marked_writeInode]
  exact (clearedClusters_spec h hlive).2 k hk

theorem inodeBits_unlinkInode {k : ℕ} (hk : k ≠ ino) (hbit : bitGet s.inodeBitmap k = true) :
    bitGet (unlinkInode s ino).inodeBitmap k = true := by
  have hlen := h.base.inode_lt_bitLen (h.dir.live_lt hlive)
  rw [unlinkInode_eq h hlive, FsState.withInodes, bitGet_bitClr hlen, hbit, Bool.and_true,
    decide_eq_false hk]
  rfl

theorem rootLoad_unlinkInode (hne : ino ≠ 0) : rootLoad (unlinkInode s ino) = rootLoad s := by
  rw [(base_unlinkInode h hlive).rootLoad_eq, h.base.rootLoad_eq,
    readInode_unlinkInode h hlive (by omega) (Ne.symm hne)]

end Unlink

/-- The directory that `fs_unlink` works on is the one before, with its block. -/
theorem sameDir_unlinkInode (h : FsInv s held) {ino : ℕ} (hlive : Live s ino) (hne : ino ≠ 0) :
    SameDir s (unlinkInode s ino) where
  root := rootLoad_unlinkInode h hlive hne
  block hblk := by
    obtain ⟨hpos, hlt, -⟩ := FsInvOn.dir_marked h hblk
    exact cluster_unlinkInode h hlive hpos hlt

/-- Removing the entry of a file whose blocks and inode are freed. -/
theorem removeEntry_spec (h : FsInv s held) {e : ℕ} (he : e < direntPerBlock)
    (hne : entryIno s e ≠ 0) {t : FsState}
    (ht : t = (unlinkInode s (entryIno s e)).withEntry e (Buf.zero 32)) :
    FsInv t held ∧ t.diskBitmap = s.diskBitmap ∧ ∀ k, Live t k → Kept s t k := by
  set ino := entryIno s e with hino
  have hlive : Live s ino := Or.inr ⟨e, he, rfl, hne⟩
  have hsame := sameDir_unlinkInode h hlive hne
  have hbase := base_unlinkInode h hlive
  obtain ⟨hpos, hlt, -⟩ := FsInvOn.dir_marked h (SameDir.block_ne_zero hne)
  rw [← blockCount_unlinkInode h hlive] at hlt
  rw [← hsame.root] at hpos hlt
  have hroot : rootLoad t = rootLoad s := by
    rw [ht, rootLoad_withEntry hbase hpos hlt, hsame.root]
  have hread : ∀ k < 256, k ≠ ino → readInode t k = readInode s k := fun k hk hkne ↦ by
    rw [ht, readInode_withEntry hbase hpos hlt _ hk, readInode_unlinkInode h hlive hk hkne]
  have hself : entryIno t e = 0 := ht ▸ entryIno_withEntry_zero hbase hpos hlt he
  have hother : ∀ e' < direntPerBlock, e' ≠ e → entryIno s e' ≠ 0 → entryIno s e' ≠ ino :=
    fun e' he' hee hne' heq ↦ hee (h.dir.entry_inj e' he' e he hne' hne (Or.inl heq))
  have hliveOf : ∀ k, Live t k → Live s k ∧ k ≠ ino := by
    intro k hk
    rw [ht, live_withEntry hbase hpos hlt _ he, ← ht, hself] at hk
    rcases hk with rfl | ⟨e', he', hee, rfl, hk⟩ | ⟨rfl, hk⟩
    · exact ⟨Live.root s, Ne.symm hne⟩
    · rw [hsame.entryIno] at hk ⊢
      exact ⟨Or.inr ⟨e', he', rfl, hk⟩, hother e' he' hee hk⟩
    · exact absurd rfl hk
  have hkept : ∀ k, Live t k → Kept s t k := fun k hk ↦ by
    obtain ⟨hold, hkne⟩ := hliveOf k hk
    exact ⟨hold, hread k (h.dir.live_lt hold) hkne⟩
  have hbits : t.inodeBitmap = (unlinkInode s ino).inodeBitmap := by rw [ht]; rfl
  refine ⟨⟨ht ▸ hbase.setCluster hlt _, ?_, ?_, ?_, ?_, ?_⟩, ?_, hkept⟩
  · rw [ht]
    refine dirOk_withEntry hbase hpos hlt _ (hsame.root ▸ h.dir.root_size)
      (hsame.root ▸ h.dir.root_rest) (fun e' he' hee hne' ↦ ?_)
      (fun e₁ he₁ e₂ he₂ _ _ hne₁ hne₂ heq ↦ ?_) fun hused ↦ absurd (ht ▸ hself) hused
    · rw [hsame.entryIno] at hne' ⊢
      rw [hsame.entryLen hne']
      obtain ⟨hlt', hbit, hlen⟩ := h.dir.entry_ok e' he' hne'
      exact ⟨hlt', inodeBits_unlinkInode h hlive (hother e' he' hee hne') hbit, hlen⟩
    · rw [hsame.entryIno] at hne₁ hne₂
      rw [hsame.entryIno, hsame.entryIno, hsame.entryName hne₁, hsame.entryName hne₂] at heq
      exact h.dir.entry_inj e₁ he₁ e₂ he₂ hne₁ hne₂ heq
  · rw [hbits]
    exact inodeBits_unlinkInode h hlive (Ne.symm hne) h.root_bit
  · intro j
    rw [hroot, hread 0 (by omega) (Ne.symm hne), h.base.rootLoad_eq]
  · intro k hk j hj hz
    rw [(hkept k hk).2] at hz ⊢
    exact h.slots_pre k (hkept k hk).1 j hj hz
  · refine h.own.release (fun o ↦ ∃ j, o = .slot ino j) (fun o c ho ↦ ?_) fun c hc ↦ ?_
    · cases o with
      | held a => exact ⟨ownerOf_held.mpr (ownerOf_held.mp ho), by simp⟩
      | slot k j =>
        obtain ⟨hk, hj, hz, heq⟩ := ownerOf_slot.mp ho
        rw [(hkept k hk).2] at hz heq
        refine ⟨ownerOf_slot.mpr ⟨(hkept k hk).1, hj, hz, heq⟩, ?_⟩
        rintro ⟨j', hsameSlot⟩
        injection hsameSlot with hkino
        exact (hliveOf k hk).2 hkino
    · rcases marked_unlinkInode h hlive hc with hmarked | ⟨j, hj, heq⟩
      · exact Or.inl (by rwa [ht, FsState.withEntry, marked_setCluster])
      · have hz : (readInode s ino).block j ≠ 0 := by
          rw [heq]
          exact Nat.pos_iff_ne_zero.mp hc.1
        exact Or.inr ⟨.slot ino j, ⟨j, rfl⟩, ownerOf_slot.mpr ⟨hlive, hj, hz, heq⟩⟩
  · rw [ht, FsState.withEntry, diskBitmap_setCluster _ hbase.sbOk hlt,
      diskBitmap_unlinkInode h hlive]

/-- The exits of `fs_unlink`: a name that is not there, or the removal of its entry. -/
inductive UnlinkExit (s : FsState) (nm : CStr) : Bool → FsState → Prop
  | absent (hname : fsLookup s nm = -1) : UnlinkExit s nm false s
  | removed {e : ℕ} (he : e < direntPerBlock) (hne : entryIno s e ≠ 0)
      (hname : entryName s e = nm) (hfound : fsLookup s nm = entryIno s e) :
      UnlinkExit s nm true ((unlinkInode s (entryIno s e)).withEntry e (Buf.zero 32))

theorem fsUnlink_exit (h : FsInv s held) (nm : CStr) :
    UnlinkExit s nm (fsUnlink s nm).1 (fsUnlink s nm).2 := by
  have hmounted : (!s.mounted) = false := by rw [h.base.mounted]; rfl
  rcases fsLookup_spec h nm with ⟨hnone, -⟩ | ⟨e, he, hslot, hne, hname, heq⟩
  · have heq : fsUnlink s nm = (false, s) := by
      simp only [fsUnlink, hmounted, hnone, if_true, Bool.false_eq_true, if_false]
    rw [heq]
    exact .absent hnone
  · have hlive : Live s (entryIno s e) := Or.inr ⟨e, he, rfl, hne⟩
    have hlt := h.dir.live_lt hlive
    have hfound : ¬ fsLookup s nm = -1 := by omega
    have hino : (fsLookup s nm % 2 ^ 32).toNat = entryIno s e := by omega
    have hsame := sameDir_unlinkInode h hlive hne
    have hblk := SameDir.block_ne_zero hne
    obtain ⟨-, hclt, -⟩ := FsInvOn.dir_marked h hblk
    have hwrite : ∀ b, fsClusterWrite (unlinkInode s (entryIno s e)) ((rootLoad s).block 0) b =
        some ((unlinkInode s (entryIno s e)).setCluster ((rootLoad s).block 0) b) := fun b ↦
      fsClusterWrite_of_lt (by rw [blockCount_unlinkInode h hlive]; exact hclt) b
    have hresult : fsUnlink s nm =
        (true, (unlinkInode s (entryIno s e)).withEntry e (Buf.zero 32)) := by
      rw [fsUnlink, hmounted, if_neg Bool.false_ne_true]
      simp only [hfound, if_false, hslot, hino]
      change (true, (fsClusterWrite (unlinkInode s (entryIno s e)) ((rootLoad s).block 0)
        (FsDirent.put ((unlinkInode s (entryIno s e)).cluster ((rootLoad s).block 0)) e
          (Buf.zero 32))).getD _) = _
      rw [hwrite, Option.getD_some, FsState.withEntry, hsame.root]
    rw [hresult]
    exact .removed he hne hname heq

theorem fsUnlink_spec (h : FsInv s held) (nm : CStr) :
    UnlinkSpec s held (fsUnlink s nm).1 (fsUnlink s nm).2 := by
  have hexit := fsUnlink_exit h nm
  revert hexit
  generalize (fsUnlink s nm).1 = ok, (fsUnlink s nm).2 = t
  intro hexit
  cases hexit with
  | absent => exact ⟨h, rfl, fun _ ↦ rfl, fun _ hk ↦ ⟨hk, rfl⟩⟩
  | removed he hne =>
    obtain ⟨hinv, hdisk, hkept⟩ := removeEntry_spec h he hne rfl
    exact ⟨hinv, hdisk, fun hfalse ↦ absurd hfalse.symm Bool.false_ne_true, hkept⟩

end NoOsKernel.Fs
