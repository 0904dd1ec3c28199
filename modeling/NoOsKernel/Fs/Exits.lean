import NoOsKernel.Fs.Contents

/-!
# What `fs_create` and `fs_unlink` leave

`CreateExit` lists the exits of `fs_create` with the states they leave, on a filesystem that
satisfies the invariant. `Created` and `Unlinked` collect what the exits that succeed do to the two
bitmaps, to the directory and to the other files.
-/

set_option autoImplicit false
set_option relaxedAutoImplicit false

namespace NoOsKernel.Fs

open Lib

variable {s t u : FsState} {held held' : Finset ℕ} {nm nm' : CStr} {ino : ℕ}

/-! ### Files around a directory entry -/

theorem entryIs_withEntry_of_ne (hbase : FsBase s) (hpos : 0 < (rootLoad s).block 0)
    (hlt : (rootLoad s).block 0 < s.blockCount) {e e' : ℕ} (hne : e' ≠ e)
    (hlen : entryIno s e' ≠ 0 → entryLen s e' ≤ fsNameMax) (d : Buf 32) :
    EntryIs (s.withEntry e d) e' nm ino ↔ EntryIs s e' nm ino := by
  unfold EntryIs
  rw [entryIno_withEntry_of_ne hbase hpos hlt d hne]
  refine and_congr_right fun hino ↦ and_congr_right fun heq ↦ ?_
  rw [entryName_withEntry_of_ne hbase hpos hlt d hne (hlen (heq ▸ hino))]

/-- Replacing an entry leaves the files of the names that neither the old nor the new entry
carries. -/
theorem sameFile_withEntry (h : FsInv s held) (hbase : FsBase u) (hsb : u.sb = s.sb)
    (hdir : SameDir s u) (hblk : (rootLoad s).block 0 ≠ 0) {e : ℕ} {d : Buf 32}
    (h' : FsInv (u.withEntry e d) held') (hold : ∀ ino, ¬ EntryIs s e nm ino)
    (hnew : ∀ ino, ¬ EntryIs (u.withEntry e d) e nm ino)
    (hclusters : ∀ c, 0 < c → c < s.blockCount → u.cluster c = s.cluster c)
    (hinodes : ∀ ino : ℕ, fsLookup s nm = ino → readInode u ino = readInode s ino) :
    SameFile s (u.withEntry e d) nm := by
  obtain ⟨hpos, hlt, -⟩ := FsInvOn.dir_marked h hblk
  have hroot := hdir.root
  have hcount : u.blockCount = s.blockCount := by rw [FsState.blockCount, hsb]
  have hpos' : 0 < (rootLoad u).block 0 := by rwa [hroot]
  have hlt' : (rootLoad u).block 0 < u.blockCount := by rwa [hroot, hcount]
  refine ⟨fsLookup_of_sameEntries h h' fun e' he' ino ↦ ?_, fun k hk buf max ↦ ?_⟩
  · by_cases hee : e' = e
    · rw [hee]
      exact iff_of_false (hnew ino) (hold ino)
    · rw [entryIs_withEntry_of_ne hbase hpos' hlt' hee, hdir.entryIs]
      intro hused
      rw [hdir.entryIno] at hused
      rw [hdir.entryLen hused]
      exact (h.dir.entry_ok e' he' hused).2.2
  · obtain ⟨hlive, hne⟩ := live_of_fsLookup_eq h hk
    have hinode : readInode (u.withEntry e d) k = readInode s k := by
      rw [readInode_withEntry hbase hpos' hlt' d (h.dir.live_lt hlive), hinodes k hk]
    have hsb' : (u.withEntry e d).sb = s.sb := hsb
    refine fsReadFile_of_same hsb' hinode (fun j hj hz ↦ ?_) buf max
    obtain ⟨hcpos, hclt, -⟩ := FsInvOn.slot_marked h hlive hj hz
    have hother : (readInode s k).block j ≠ (rootLoad u).block 0 := by
      rw [hroot, h.base.rootLoad_eq]
      exact fun heq ↦ hne (FsInvOn.slot_inj h hlive (Live.root s) hj (by decide) hz heq).1
    rw [FsState.withEntry, cluster_setCluster_of_ne _ hbase.sbOk hlt' (hcount ▸ hclt) hother,
      hclusters _ hcpos hclt]

/-! ### `fs_create` -/

/-- The state in which `fs_create` has marked inode `ino` and written it. -/
def takenInode (s : FsState) (ino mode ticks : ℕ) : FsState :=
  writeInode (s.withInodes (bitSet s.inodeBitmap ino)) ino (newInode mode ticks)

/-- The type that `fs_create` gives a directory entry. -/
def direntType (mode : ℕ) : ℕ := if mode = fsInodeDir then 2 else 1

/-- The exits of `fs_create`. -/
inductive CreateExit (s : FsState) (nm : CStr) (mode ticks : ℕ) : ℤ → FsState → Prop
  | known (hfound : 0 ≤ fsLookup s nm) : CreateExit s nm mode ticks (-1) s
  | noInode (hnew : fsLookup s nm = -1) (hfull : firstClear s.inodeBitmap 1 256 = none) :
      CreateExit s nm mode ticks (-1) s
  | noEntry {ino : ℕ} {t : FsState} (hnew : fsLookup s nm = -1)
      (hino : firstClear s.inodeBitmap 1 256 = some ino)
      (hadd : AddExit (takenInode s ino mode ticks) nm ino (direntType mode) false t) :
      CreateExit s nm mode ticks (-1) t
  | created {ino : ℕ} {t : FsState} (hnew : fsLookup s nm = -1)
      (hino : firstClear s.inodeBitmap 1 256 = some ino)
      (hadd : AddExit (takenInode s ino mode ticks) nm ino (direntType mode) true t) :
      CreateExit s nm mode ticks ino t

theorem fsAllocInode_eq (h : FsInv s held) : fsAllocInode s =
    (firstClear s.inodeBitmap 1 256).map fun i ↦ (i, s.withInodes (bitSet s.inodeBitmap i)) := by
  have hcount : s.inodeCount = 256 := h.base.sbOk.inodeCount
  rw [fsAllocInode, hcount]
  rfl

section Taken

variable (h : FsInv s held) (hino : firstClear s.inodeBitmap 1 256 = some ino) (mode ticks : ℕ)

include h hino

theorem FsInv.takenInode : FsInv (takenInode s ino mode ticks) held ∧
    SameDir s (Fs.takenInode s ino mode ticks) := by
  have halloc : fsAllocInode s = some (ino, s.withInodes (bitSet s.inodeBitmap ino)) := by
    rw [fsAllocInode_eq h, hino, Option.map_some]
  obtain ⟨hinv, hsame, -⟩ := allocInode_spec h halloc mode ticks
  exact ⟨hinv, hsame⟩

/-- The inode that `fs_create` takes is not live, and the other inodes stay. -/
theorem readInode_takenInode : ino ≠ 0 ∧ ino < 256 ∧ ¬ Live s ino ∧
    ∀ k < 256, readInode (takenInode s ino mode ticks) k =
      if k = ino then newInode mode ticks else readInode s k := by
  have halloc : fsAllocInode s = some (ino, s.withInodes (bitSet s.inodeBitmap ino)) := by
    rw [fsAllocInode_eq h, hino, Option.map_some]
  obtain ⟨-, -, -, -, -, hne, hlt, hnot, hreads⟩ := allocInode_spec h halloc mode ticks
  refine ⟨hne, hlt, hnot, fun k hk ↦ ?_⟩
  split_ifs with heq
  · rw [heq, takenInode, readInode_writeInode_same]
  · exact hreads k hk heq

theorem cluster_takenInode {c : ℕ} (hpos : 0 < c) (hc : c < s.blockCount) :
    (takenInode s ino mode ticks).cluster c = s.cluster c := by
  obtain ⟨-, hlt, -, -⟩ := readInode_takenInode h hino mode ticks
  have hbase := h.base.withInodes ((length_bitSet s.inodeBitmap ino).trans h.base.inodeLen)
  rw [takenInode, cluster_writeInode _ hbase.sbOk hlt hpos hc]
  rfl

end Taken

theorem fsCreate_exit (h : FsInv s held) (nm : CStr) (mode ticks : ℕ) :
    CreateExit s nm mode ticks (fsCreate s nm mode ticks).1 (fsCreate s nm mode ticks).2 := by
  have hmounted : (!s.mounted) = false := by rw [h.base.mounted]; rfl
  rw [fsCreate, hmounted, if_neg Bool.false_ne_true]
  by_cases hfound : fsLookup s nm ≥ 0
  · rw [if_pos hfound]
    exact .known hfound
  rw [if_neg hfound, fsAllocInode_eq h]
  have hnew : fsLookup s nm = -1 := by
    by_contra hne
    obtain ⟨-, -, heq⟩ := live_of_fsLookup h hne
    omega
  rcases hino : firstClear s.inodeBitmap 1 256 with - | ino
  · exact .noInode hnew hino
  · have hadd := dirAddEntry_exit (h.takenInode hino mode ticks).1 nm ino (direntType mode)
    rw [Option.map_some]
    dsimp only
    rw [← takenInode, ← direntType]
    rcases hret : dirAddEntry (takenInode s ino mode ticks) nm ino (direntType mode) with
      ⟨- | -, t⟩
    · rw [hret] at hadd
      exact .noEntry hnew hino hadd
    · rw [hret] at hadd
      exact .created hnew hino hadd

/-- What `fs_create` does when it succeeds: it takes a clear inode and enters it under the name, and
every other name keeps its file. A directory with a block costs no cluster. -/
structure Created (s : FsState) (held : Finset ℕ) (nm : CStr) (mode ticks ino : ℕ)
    (t : FsState) : Prop where
  inv : FsInv t held
  sb : t.sb = s.sb
  found : fsLookup t nm = ino
  name : nm.length ≠ 0 ∧ nm.length ≤ fsNameMax
  clear : bitGet s.inodeBitmap ino = false
  lt : ino < 256
  inode : readInode t ino = newInode mode ticks
  inodeBitmap : t.inodeBitmap = bitSet s.inodeBitmap ino
  clusterBitmap : (rootLoad s).block 0 ≠ 0 → t.clusterBitmap = s.clusterBitmap
  others : ∀ nm' ≠ nm, SameFile s t nm'

theorem Created.of_entry (h : FsInv s held) {mode ticks : ℕ}
    (hino : firstClear s.inodeBitmap 1 256 = some ino)
    (hname : nm.length ≠ 0 ∧ nm.length ≤ fsNameMax) {e : ℕ} (he : e < direntPerBlock)
    (hblk : (rootLoad (takenInode s ino mode ticks)).block 0 ≠ 0)
    (hfree : entryIno (takenInode s ino mode ticks) e = 0)
    (hinv : FsInv ((takenInode s ino mode ticks).withEntry e
      (FsDirent.make ino (direntType mode) nm)) held) :
    Created s held nm mode ticks ino ((takenInode s ino mode ticks).withEntry e
      (FsDirent.make ino (direntType mode) nm)) := by
  obtain ⟨hinv₁, hdir⟩ := h.takenInode hino mode ticks
  obtain ⟨hne, hlt, -, hreads⟩ := readInode_takenInode h hino mode ticks
  obtain ⟨hpos, hclt, -⟩ := FsInvOn.dir_marked hinv₁ hblk
  obtain ⟨hself, -, hselfName⟩ :=
    entry_withEntry_make hinv₁.base hpos hclt he hlt hname.2 (direntType mode)
  refine ⟨hinv, rfl, (fsLookup_eq_iff hinv).mpr ⟨e, he, hne, hself, hselfName⟩, hname,
    (firstClear_eq_some hino).2.2, hlt, ?_, rfl, fun _ ↦ rfl, fun nm' hnm' ↦ ?_⟩
  · rw [readInode_withEntry hinv₁.base hpos hclt _ hlt, hreads ino hlt, if_pos rfl]
  · refine sameFile_withEntry h hinv₁.base rfl hdir (hdir.root ▸ hblk) hinv (fun k hentry ↦ ?_)
      (fun k hentry ↦ ?_) (fun c hcpos hc ↦ cluster_takenInode h hino mode ticks hcpos hc)
      fun k hk ↦ ?_
    · rw [hdir.entryIno] at hfree
      exact hentry.1 (hentry.2.1 ▸ hfree)
    · exact hnm' (hentry.2.2.symm.trans hselfName)
    · obtain ⟨hlive, -⟩ := live_of_fsLookup_eq h hk
      have hkino : k ≠ ino := fun heq ↦ (readInode_takenInode h hino mode ticks).2.2.1 (heq ▸ hlive)
      rw [hreads k (h.dir.live_lt hlive), if_neg hkino]

theorem Created.of_first (h : FsInv s held) {mode ticks : ℕ}
    (hino : firstClear s.inodeBitmap 1 256 = some ino)
    (hname : nm.length ≠ 0 ∧ nm.length ≤ fsNameMax) {e c : ℕ} (he : e < direntPerBlock)
    (hblk : (rootLoad (takenInode s ino mode ticks)).block 0 = 0)
    (hfirst : firstClear (takenInode s ino mode ticks).clusterBitmap 1
      (takenInode s ino mode ticks).blockCount = some c)
    (hinv : FsInv (((takenInode s ino mode ticks).withRootBlock c).withEntry e
      (FsDirent.make ino (direntType mode) nm)) held) :
    Created s held nm mode ticks ino (((takenInode s ino mode ticks).withRootBlock c).withEntry e
      (FsDirent.make ino (direntType mode) nm)) := by
  obtain ⟨hinv₁, hdir⟩ := h.takenInode hino mode ticks
  obtain ⟨hne, hlt, -, hreads⟩ := readInode_takenInode h hino mode ticks
  have hroot := newRootBlock hinv₁ hblk hfirst
  obtain ⟨hpos, hclt, -⟩ := FsInvOn.dir_marked hroot.inv hroot.after
  obtain ⟨hself, -, hselfName⟩ :=
    entry_withEntry_make hroot.inv.base hpos hclt he hlt hname.2 (direntType mode)
  refine ⟨hinv, rfl, (fsLookup_eq_iff hinv).mpr ⟨e, he, hne, hself, hselfName⟩, hname,
    (firstClear_eq_some hino).2.2, hlt, ?_, rfl, fun hused ↦ absurd (hdir.root ▸ hblk) hused,
    fun nm' hnm' ↦ ?_⟩
  · rw [readInode_withEntry hroot.inv.base hpos hclt _ hlt, hroot.inodes ino hlt hne,
      hreads ino hlt, if_pos rfl]
  · -- the directory was empty
    have hnone : fsLookup s nm' = -1 := (fsLookup_eq_neg_one_iff h).mpr fun e' _ k hentry ↦
      hentry.1 (hentry.2.1 ▸ entryIno_of_eq (hdir.root ▸ hblk) e')
    refine ⟨?_, fun k hk ↦ absurd (hnone.symm.trans hk) (by omega)⟩
    rw [hnone, fsLookup_eq_neg_one_iff hinv]
    intro e' he' k hentry
    by_cases hee : e' = e
    · rw [hee] at hentry
      exact hnm' (hentry.2.2.symm.trans hselfName)
    · refine hentry.1 ?_
      rw [← hentry.2.1, entryIno_withEntry_of_ne hroot.inv.base hpos hclt _ hee]
      exact hroot.empty e'

theorem fsCreate_created (h : FsInv s held) {mode ticks : ℕ}
    (hok : 0 ≤ (fsCreate s nm mode ticks).1) :
    Created s held nm mode ticks (fsCreate s nm mode ticks).1.toNat (fsCreate s nm mode ticks).2 := by
  have hinv := (fsCreate_spec h nm mode ticks).inv
  have hexit := fsCreate_exit h nm mode ticks
  revert hinv hexit hok
  generalize (fsCreate s nm mode ticks).1 = r, (fsCreate s nm mode ticks).2 = t
  intro hok hinv hexit
  cases hexit with
  | known => exact absurd hok (by decide)
  | noInode => exact absurd hok (by decide)
  | noEntry => exact absurd hok (by decide)
  | created hnew hino hadd =>
    rw [Int.toNat_natCast]
    cases hadd with
    | entry hname hblk he hfree => exact .of_entry h hino hname he hblk hfree hinv
    | first hname hblk hfirst he => exact .of_first h hino hname he hblk hfirst hinv

/-! ### `fs_unlink` -/

/-- What `fs_unlink` does with a name that is there: the inode and its clusters are free again, and
every other name keeps its file. -/
structure Unlinked (s : FsState) (held : Finset ℕ) (nm : CStr) (ino : ℕ) (t : FsState) :
    Prop where
  inv : FsInv t held
  sb : t.sb = s.sb
  root : rootLoad t = rootLoad s
  gone : fsLookup t nm = -1
  room : ∃ e < direntPerBlock, entryIno t e = 0
  inodeBitmap : t.inodeBitmap = bitClr s.inodeBitmap ino
  clusterBitmap : t.clusterBitmap = clearedClusters s ino
  others : ∀ nm' ≠ nm, SameFile s t nm'

theorem Unlinked.of_entry (h : FsInv s held) {e : ℕ} (he : e < direntPerBlock)
    (hne : entryIno s e ≠ 0) (hname : entryName s e = nm) :
    Unlinked s held nm (entryIno s e)
      ((unlinkInode s (entryIno s e)).withEntry e (Buf.zero 32)) := by
  have hlive : Live s (entryIno s e) := Or.inr ⟨e, he, rfl, hne⟩
  have hblk := SameDir.block_ne_zero hne
  have hbase := base_unlinkInode h hlive
  have hdir := sameDir_unlinkInode h hlive hne
  have heq := unlinkInode_eq h hlive
  obtain ⟨hinv, -, -⟩ := removeEntry_spec h he hne rfl
  obtain ⟨hpos, hlt, -⟩ := FsInvOn.dir_marked h hblk
  rw [← blockCount_unlinkInode h hlive] at hlt
  rw [← hdir.root] at hpos hlt
  have hzero := entryIno_withEntry_zero hbase hpos hlt he
  have hothers : ∀ e' < direntPerBlock, e' ≠ e → ∀ nm k, EntryIs ((unlinkInode s
      (entryIno s e)).withEntry e (Buf.zero 32)) e' nm k ↔ EntryIs s e' nm k := by
    intro e' he' hee nm k
    rw [entryIs_withEntry_of_ne hbase hpos hlt hee, hdir.entryIs]
    intro hused
    rw [hdir.entryIno] at hused
    rw [hdir.entryLen hused]
    exact (h.dir.entry_ok e' he' hused).2.2
  refine ⟨hinv, by rw [heq]; rfl, ?_, ?_, ⟨e, he, hzero⟩, by rw [heq]; rfl, by rw [heq]; rfl,
    fun nm' hnm' ↦ ?_⟩
  · rw [rootLoad_withEntry hbase hpos hlt, hdir.root]
  · rw [fsLookup_eq_neg_one_iff hinv]
    intro e' he' k hentry
    by_cases hee : e' = e
    · rw [hee] at hentry
      exact hentry.1 (hentry.2.1 ▸ hzero)
    · obtain ⟨hk, hino, hnm⟩ := (hothers e' he' hee nm k).mp hentry
      exact hee (h.dir.entry_inj e' he' e he (hino ▸ hk) hne (Or.inr (hnm.trans hname.symm)))
  · refine sameFile_withEntry h hbase (by rw [heq]; rfl) hdir hblk hinv (fun k hentry ↦ ?_)
      (fun k hentry ↦ ?_) (fun c hcpos hc ↦ cluster_unlinkInode h hlive hcpos hc) fun k hk ↦ ?_
    · exact hnm' (hentry.2.2.symm.trans hname)
    · exact hentry.1 (hentry.2.1 ▸ hzero)
    · obtain ⟨e', he', hk', hino', hname'⟩ := (fsLookup_eq_iff h).mp hk
      have hlt' := (h.dir.entry_ok e' he' (hino' ▸ hk')).1
      refine readInode_unlinkInode h hlive (hino' ▸ hlt') fun heq' ↦ hnm' ?_
      rw [← hname', ← hname, h.dir.entry_inj e' he' e he (hino' ▸ hk') hne
        (Or.inl (hino'.trans heq'))]

theorem fsUnlink_unlinked (h : FsInv s held) (hfound : fsLookup s nm = ino) :
    (fsUnlink s nm).1 = true ∧ Unlinked s held nm ino (fsUnlink s nm).2 := by
  have hexit := fsUnlink_exit h nm
  revert hexit
  generalize (fsUnlink s nm).1 = ok, (fsUnlink s nm).2 = t
  intro hexit
  cases hexit with
  | absent hnone => exact absurd (hfound.symm.trans hnone) (by omega)
  | removed he hne hname hfound' =>
    obtain rfl : ino = entryIno s _ := Nat.cast_injective (hfound.symm.trans hfound')
    exact ⟨rfl, .of_entry h he hne hname⟩

/-- The clusters of the file are free again. -/
theorem Unlinked.count (hspec : Unlinked s held nm ino t) (h : FsInv s held) (hlive : Live s ino) :
    freeClusters t = freeClusters s + usedSlots (readInode s ino) := by
  obtain ⟨hnodup, hmarked⟩ := h.slotClusters_marked hlive List.nodup_range fun j hj ↦
    List.mem_range.mp hj
  have hfree := freeClusters_clear h.base hnodup hmarked
  rw [usedSlots, ← hfree, freeClusters, freeClusters, hspec.clusterBitmap, FsState.blockCount,
    hspec.sb]
  rfl

end NoOsKernel.Fs
