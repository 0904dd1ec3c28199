import NoOsKernel.Fs.Shell

/-!
# The bitmap on disk between operations

After every shell operation the cluster bitmap on disk marks each cluster that a live inode on disk
refers to, so that a reboot never offers a live cluster for allocation (`bitmapSound_of_run`). The
exception is the first file ever created: `root_ensure_block` stores the new block of the root
directory in the root inode at once, and when the write of the file then fails, the operation
returns without a flush (`bitmapSound_fails_after_failed_save`). `FirstFileOk` excludes exactly this.
-/

set_option autoImplicit false
set_option relaxedAutoImplicit false

namespace NoOsKernel.Fs

open Lib

variable {s t : FsState} {held : Finset ℕ}

/-- The bitmap on disk marks every cluster a live inode refers to, and a mount from that disk does
not offer one of them. -/
structure BitmapSound (s : FsState) : Prop where
  marked : ∀ i j, LiveInode s i → j < fsMaxBlocks → (readInode s i).block j ≠ 0 →
    bitGet s.diskBitmap ((readInode s i).block j) = true
  reboot : ∀ kmalloc c t, (fsMount kmalloc s).1 = true →
    fsAllocCluster (fsMount kmalloc s).2 = some (c, t) →
      ∀ i j, LiveInode s i → j < fsMaxBlocks → (readInode s i).block j ≠ c

/-- The marks on disk, as the invariant of a run keeps them. -/
def DiskMarked (s : FsState) : Prop :=
  ∀ i, Live s i → ∀ j < fsMaxBlocks, (readInode s i).block j ≠ 0 →
    bitGet s.diskBitmap ((readInode s i).block j) = true

theorem DiskMarked.bitmapSound (h : FsInv s held) (hdisk : DiskMarked s) : BitmapSound s where
  marked i j hi hj hne := hdisk i ((liveInode_iff h).mp hi) j hj hne
  reboot kmalloc c t hmount halloc i j hi hj heq := by
    rw [fsMount_eq h.base.diskOk hmount] at halloc
    obtain ⟨hfirst, -⟩ := fsAllocCluster_eq_some rfl halloc
    obtain ⟨hpos, -, hclear⟩ := firstClear_eq_some hfirst
    rw [clusterBitmap_mountedState] at hclear
    have hmarked := hdisk i ((liveInode_iff h).mp hi) j hj (by omega)
    rw [heq, hclear] at hmarked
    exact Bool.false_ne_true hmarked

/-! ### Single steps -/

/-- A step that wrote no new block into a live inode, and did not touch the bitmap on disk. -/
theorem DiskMarked.of_kept (hdisk : DiskMarked s) (hbitmap : t.diskBitmap = s.diskBitmap)
    (hkept : ∀ i, Live t i → Kept s t i ∨ ∀ j, (readInode t i).block j = 0) : DiskMarked t := by
  intro i hi j hj hne
  rcases hkept i hi with ⟨hlive, hread⟩ | hzero
  · rw [hread] at hne ⊢
    rw [hbitmap]
    exact hdisk i hlive j hj hne
  · exact absurd (hzero j) hne

/-- A flush brings the bitmap on disk up to date. -/
theorem DiskMarked.sync (h : FsInv s held) : DiskMarked (fsSyncBitmap s) := by
  intro i hi j hj hne
  have hlive := ((sameDir_fsSyncBitmap h).live i).mp hi
  rw [readInode_fsSyncBitmap h.base.sbOk (h.dir.live_lt hlive)] at hne ⊢
  rw [diskBitmap_fsSyncBitmap h.base.sbOk h.base.mounted h.base.clusterLen]
  exact (FsInvOn.slot_marked h hlive hj hne).2.2

theorem DiskMarked.unlink (h : FsInv s held) (hdisk : DiskMarked s) (nm : CStr) :
    DiskMarked (fsUnlink s nm).2 :=
  hdisk.of_kept (fsUnlink_spec h nm).diskBitmap fun i hi ↦ Or.inl ((fsUnlink_spec h nm).kept i hi)

/-- A failed write leaves the marks on disk sufficient. -/
theorem DiskMarked.failed_write (h : FsInv s held) (hdisk : DiskMarked s) {ino : ℕ}
    (hlive : Live s ino) (hne : ino ≠ 0) {data : ℕ → Byte} {size ticks : ℕ}
    (hfail : (fsWriteFile s ino data size ticks).1 = false) :
    DiskMarked (fsWriteFile s ino data size ticks).2 := by
  have hspec := fsWriteFile_spec h hlive hne data size ticks
  refine hdisk.of_kept hspec.diskBitmap fun i hi ↦ Or.inl ⟨(hspec.dir.live i).mp hi, ?_⟩
  by_cases hself : i = ino
  · rw [hself]
    exact (hspec.failed hfail).1
  · exact hspec.others i ((hspec.dir.live i).mp hi) hself

/-! ### Creating and writing a file -/

/-- Creating and writing a file of `size` bytes leaves no unflushed block of the directory: the
directory has its block already, or the file is not created (no valid name, no free cluster for the
directory, no free inode), or the free clusters hold the directory's block and the file. -/
def FirstFileOk (s : FsState) (nm : CStr) (size : ℕ) : Prop :=
  (rootLoad s).block 0 ≠ 0 ∨ nm.length = 0 ∨ nm.length > fsNameMax ∨ freeClusters s = 0 ∨
    firstClear s.inodeBitmap 1 s.inodeCount = none ∨
    (fileBlocks size ≤ fsMaxBlocks ∧ fileBlocks size + 1 ≤ freeClusters s)

instance (s : FsState) (nm : CStr) (size : ℕ) : Decidable (FirstFileOk s nm size) :=
  inferInstanceAs (Decidable (_ ∨ _))

/-- Without a free inode nothing is created. -/
theorem fsCreate_of_no_inode (hfull : firstClear s.inodeBitmap 1 s.inodeCount = none) (nm : CStr)
    (mode ticks : ℕ) : (fsCreate s nm mode ticks).1 = -1 := by
  have halloc : fsAllocInode s = none := by rw [fsAllocInode, hfull, Option.map_none]
  simp only [fsCreate, halloc]
  split_ifs <;> rfl

/-- A file that was just created and could not be written. -/
theorem DiskMarked.failed_create_write (h : FsInv s held) (hdisk : DiskMarked s) {nm : CStr}
    {mode ticks ticks' size : ℕ} {data : ℕ → Byte} (hok : FirstFileOk s nm size)
    (hcreated : ¬ (fsCreate s nm mode ticks).1 < 0)
    (hfail : (fsWriteFile (fsCreate s nm mode ticks).2 (fsCreate s nm mode ticks).1.toNat data size
      ticks').1 = false) :
    DiskMarked (fsWriteFile (fsCreate s nm mode ticks).2 (fsCreate s nm mode ticks).1.toNat data
      size ticks').2 := by
  have hspec := fsCreate_spec h nm mode ticks
  obtain ⟨hlive, hne, -, -, hblocks, hothers⟩ := hspec.created (not_lt.mp hcreated)
  refine DiskMarked.failed_write hspec.inv ?_ hlive hne hfail
  refine hdisk.of_kept hspec.diskBitmap fun i hi ↦ ?_
  by_cases hnew : i = (fsCreate s nm mode ticks).1.toNat
  · exact Or.inr (by rw [hnew]; exact hblocks)
  by_cases hroot : i = 0
  · subst hroot
    rcases hspec.root.1 with ⟨hsame, -⟩ | ⟨hbefore, -, -, hcount⟩
    · exact Or.inl ⟨Live.root s, hsame⟩
    · -- a directory block that is not on disk yet: every case of the condition is excluded
      obtain ⟨hname, hlen⟩ := hspec.name_ok (not_lt.mp hcreated)
      obtain ⟨-, hfull⟩ := (fsWriteFile_spec hspec.inv hlive hne data size ticks').failed hfail
      have hshort : fsMaxBlocks < fileBlocks size ∨
          freeClusters (fsCreate s nm mode ticks).2 < fileBlocks size := by
        rcases hfull with ⟨hbig, -⟩ | ⟨n, i', hout⟩
        · exact Or.inl hbig
        · have hless := hout.short
          exact Or.inr (by omega)
      rcases hok with hok | hok | hok | hok | hok | ⟨hfits, hroom⟩
      · exact absurd hbefore hok
      · exact absurd hok hname
      · omega
      · omega
      · rw [fsCreate_of_no_inode hok] at hcreated
        exact absurd (by decide) hcreated
      · omega
  · exact Or.inl (hothers i hi hroot hnew)

/-- The invariant between operations. -/
def Sound (s : FsState) : Prop := FsInv s ∅ ∧ DiskMarked s

theorem Sound.sync (h : FsInv s ∅) : Sound (fsSyncBitmap s) := ⟨h.syncBitmap, DiskMarked.sync h⟩

/-- The state `fs_lookup` and, if the file is missing, `fs_create` leave, with the inode. -/
def openFile (s : FsState) (nm : CStr) (ticks : ℕ) : ℤ × FsState :=
  if fsLookup s nm < 0 then fsCreate s nm fsInodeReg ticks else (fsLookup s nm, s)

/-- Opening a file: without an inode nothing has changed on disk; with one the file is live, and if
the write that follows fails, the marks on disk are still sufficient. -/
theorem openFile_spec (h : Sound s) {nm : CStr} {size : ℕ} (hok : FirstFileOk s nm size)
    (ticks : ℕ) :
    FsInv (openFile s nm ticks).2 ∅ ∧
      ((openFile s nm ticks).1 < 0 → DiskMarked (openFile s nm ticks).2) ∧
      (¬ (openFile s nm ticks).1 < 0 →
        Live (openFile s nm ticks).2 (openFile s nm ticks).1.toNat ∧
          (openFile s nm ticks).1.toNat ≠ 0 ∧
          ∀ data ticks', (fsWriteFile (openFile s nm ticks).2 (openFile s nm ticks).1.toNat data
              size ticks').1 = false →
            DiskMarked (fsWriteFile (openFile s nm ticks).2 (openFile s nm ticks).1.toNat data
              size ticks').2) := by
  obtain ⟨hinv, hdisk⟩ := h
  rw [openFile]
  split_ifs with hfound
  · have hspec := fsCreate_spec hinv nm fsInodeReg ticks
    refine ⟨hspec.inv, fun hr ↦ ?_, fun hr ↦ ?_⟩
    · exact hdisk.of_kept hspec.diskBitmap fun i hi ↦ Or.inl ((hspec.failed hr).2 i hi)
    · obtain ⟨hlive, hne, -⟩ := hspec.created (not_lt.mp hr)
      exact ⟨hlive, hne, fun data ticks' hfail ↦
        DiskMarked.failed_create_write hinv hdisk hok hr hfail⟩
  · have hne : fsLookup s nm ≠ -1 := by omega
    obtain ⟨hlive, hne, -⟩ := live_of_fsLookup hinv hne
    exact ⟨hinv, fun hr ↦ absurd hr hfound, fun _ ↦ ⟨hlive, hne, fun data ticks' hfail ↦
      DiskMarked.failed_write hinv hdisk hlive hne hfail⟩⟩

/-! ### The operations -/

/-- Where a file exists, the directory has its block. -/
theorem Live.block_ne_zero {i : ℕ} (hlive : Live s i) (hne : i ≠ 0) :
    (rootLoad s).block 0 ≠ 0 := by
  rcases hlive with rfl | ⟨e, -, rfl, hne⟩
  · exact absurd rfl hne
  · exact SameDir.block_ne_zero hne

/-- `corp_write` in terms of `openFile`. -/
theorem corpWrite_eq (ticks : ℕ → ℕ) (s : FsState) (nm content : CStr) :
    corpWrite ticks s nm content =
      if (openFile s nm (ticks 0)).1 < 0 then (false, false, (openFile s nm (ticks 0)).2)
      else
        match fsWriteFile (openFile s nm (ticks 0)).2 (openFile s nm (ticks 0)).1.toNat
          (fun k ↦ content.getD k 0) content.length (ticks 1) with
        | (false, s) => (true, false, s)
        | (true, s) => (true, true, fsSyncBitmap s) := rfl

/-- `corp_write`, on every exit; after a success the directory has its block. -/
theorem corpWrite_spec (h : Sound s) {nm content : CStr} (ticks : ℕ → ℕ)
    (hok : FirstFileOk s nm content.length) : Sound (corpWrite ticks s nm content).2.2 ∧
      ((corpWrite ticks s nm content).2.1 = true →
        (rootLoad (corpWrite ticks s nm content).2.2).block 0 ≠ 0) := by
  obtain ⟨hinv, hmissing, hwrite⟩ := openFile_spec h hok (ticks 0)
  rw [corpWrite_eq]
  split_ifs with hino
  · exact ⟨⟨hinv, hmissing hino⟩, nofun⟩
  · obtain ⟨hlive, hne, hfail⟩ := hwrite hino
    have hspec := fsWriteFile_spec hinv hlive hne (fun k ↦ content.getD k 0) content.length
      (ticks 1)
    have hfail := hfail (fun k ↦ content.getD k 0) (ticks 1)
    rcases hres : fsWriteFile (openFile s nm (ticks 0)).2 (openFile s nm (ticks 0)).1.toNat
      (fun k ↦ content.getD k 0) content.length (ticks 1) with ⟨- | -, t⟩
    · rw [hres] at hspec hfail
      exact ⟨⟨hspec.inv, hfail rfl⟩, nofun⟩
    · rw [hres] at hspec
      refine ⟨Sound.sync hspec.inv, fun _ ↦ ?_⟩
      rw [(sameDir_fsSyncBitmap hspec.inv).root, hspec.dir.root]
      exact hlive.block_ne_zero hne

/-- A file of the corpus or the log, once the directory has its block. -/
theorem firstFileOk_of_block (hblk : (rootLoad s).block 0 ≠ 0) (nm : CStr) (size : ℕ) :
    FirstFileOk s nm size := Or.inl hblk

/-- `corp_write_seq` in terms of `openFile`. -/
theorem corpWriteSeq_eq (ticks : ℕ → ℕ) (s : FsState) (seq : ℕ) :
    corpWriteSeq ticks s seq =
      if (openFile s (ascii "corpus.seq") (ticks 0)).1 < 0 then
        (openFile s (ascii "corpus.seq") (ticks 0)).2
      else fsSyncBitmap (fsWriteFile (openFile s (ascii "corpus.seq") (ticks 0)).2
        (openFile s (ascii "corpus.seq") (ticks 0)).1.toNat (fun k ↦ (decimal seq).getD k 0)
        (decimal seq).length (ticks 1)).2 := rfl

theorem corpWriteSeq_sound (h : Sound s) (hblk : (rootLoad s).block 0 ≠ 0) (ticks : ℕ → ℕ)
    (seq : ℕ) : Sound (corpWriteSeq ticks s seq) := by
  obtain ⟨hinv, hmissing, hwrite⟩ := openFile_spec h (firstFileOk_of_block hblk
    (ascii "corpus.seq") (decimal seq).length) (ticks 0)
  rw [corpWriteSeq_eq]
  split_ifs with hino
  · exact ⟨hinv, hmissing hino⟩
  · obtain ⟨hlive, hne, -⟩ := hwrite hino
    exact Sound.sync (fsWriteFile_spec hinv hlive hne _ _ _).inv

theorem bDeleteFile_sound (h : Sound s) (nm : CStr) : Sound (bDeleteFile s nm).2 := by
  have hspec := fsUnlink_spec h.1 nm
  have hdisk := DiskMarked.unlink h.1 h.2 nm
  rw [bDeleteFile]
  rcases hres : fsUnlink s nm with ⟨- | -, t⟩
  · rw [hres] at hspec hdisk
    exact ⟨hspec.inv, hdisk⟩
  · rw [hres] at hspec
    exact Sound.sync hspec.inv

theorem saveNew_sound (h : Sound s) {nm data : CStr} (ticks : ℕ → ℕ)
    (hok : FirstFileOk s nm data.length) : Sound (saveNew ticks s nm data).2 := by
  have hspec := fsCreate_spec h.1 nm fsInodeReg (ticks 0)
  rw [saveNew]
  dsimp only
  split_ifs with hr
  · exact ⟨hspec.inv, h.2.of_kept hspec.diskBitmap fun i hi ↦ Or.inl ((hspec.failed hr).2 i hi)⟩
  · obtain ⟨hlive, hne, -⟩ := hspec.created (not_lt.mp hr)
    have hwrite := fsWriteFile_spec hspec.inv hlive hne (fun k ↦ data.getD k 0) data.length
      (ticks 1)
    rcases hres : fsWriteFile (fsCreate s nm fsInodeReg (ticks 0)).2
      (fsCreate s nm fsInodeReg (ticks 0)).1.toNat (fun k ↦ data.getD k 0) data.length
      (ticks 1) with ⟨- | -, t⟩
    · have hfail := DiskMarked.failed_create_write h.1 h.2 hok hr (by rw [hres])
      rw [hres] at hwrite hfail
      exact ⟨hwrite.inv, hfail⟩
    · rw [hres] at hwrite
      exact Sound.sync hwrite.inv

theorem bSaveFile_sound (h : Sound s) {nm data : CStr} (ticks : ℕ → ℕ) (stale : BitVec 64)
    (hok : FirstFileOk s nm data.length) : Sound (bSaveFile ticks stale s nm data).2 := by
  rw [bSaveFile]
  by_cases hfound : fsLookup s nm ≥ 0
  · -- the old file goes first; where it was, the directory has its block
    have hspec := fsUnlink_spec h.1 nm
    have hsound : Sound (fsUnlink s nm).2 := ⟨hspec.inv, DiskMarked.unlink h.1 h.2 nm⟩
    have hne : fsLookup s nm ≠ -1 := by omega
    obtain ⟨hlive, hne, -⟩ := live_of_fsLookup h.1 hne
    have hroot : rootLoad (fsUnlink s nm).2 = rootLoad s := by
      rw [hspec.inv.base.rootLoad_eq, h.1.base.rootLoad_eq, (hspec.kept 0 (Live.root _)).2]
    have hblk : (rootLoad (fsUnlink s nm).2).block 0 ≠ 0 := by
      rw [hroot]
      exact hlive.block_ne_zero hne
    rw [if_pos hfound]
    rcases hres : fsUnlink s nm with ⟨- | -, t⟩
    · rw [hres] at hsound
      exact hsound
    · rw [hres] at hsound hblk
      exact saveNew_sound hsound ticks (firstFileOk_of_block hblk nm data.length)
  · rw [if_neg hfound]
    exact saveNew_sound h ticks hok

theorem ilSave_sound (h : Sound s) {ring : CStr} (ticks : ℕ → ℕ)
    (hok : FirstFileOk s (ascii "interact.log") (ilWindow ring).length) :
    Sound (ilSave ticks s ring).2 := by
  have hwrite := (corpWrite_spec h ticks hok).1
  rw [ilSave]
  split_ifs
  · exact h
  · split
    all_goals
      rename_i heq
      rw [heq] at hwrite
      exact hwrite

theorem corpusCommit_sound (h : Sound s) {prog seed : CStr} (ticks : ℕ → ℕ) (stack : ℕ → Byte)
    (hok : FirstFileOk s (corpName (corpSeq stack s))
      (corpContent (ticks 0) stack s seed prog).length) :
    Sound (corpusCommit ticks stack s prog seed).2 := by
  obtain ⟨hfirst, hblk⟩ := corpWrite_spec h (fun k ↦ ticks (k + 1)) hok
  rw [corpusCommit]
  split_ifs
  · exact h
  dsimp only
  split_ifs
  · exact h
  rcases hres : corpWrite (fun k ↦ ticks (k + 1)) s (corpName (corpSeq stack s))
    (corpContent (ticks 0) stack s seed prog) with ⟨b, - | -, t⟩
  · rw [hres] at hfirst
    exact hfirst
  rw [hres] at hfirst hblk
  obtain ⟨hsecond, hblk'⟩ := corpWrite_spec hfirst (fun k ↦ ticks (k + 3))
    (firstFileOk_of_block (hblk rfl) (ascii "last_known_good.noc")
      (corpContent (ticks 0) stack s seed prog).length)
  rcases hres' : corpWrite (fun k ↦ ticks (k + 3)) t (ascii "last_known_good.noc")
    (corpContent (ticks 0) stack s seed prog) with ⟨b', - | -, t'⟩
  · rw [hres'] at hsecond
    simpa only [hres'] using hsecond
  · rw [hres'] at hsecond hblk'
    simpa only [hres'] using corpWriteSeq_sound hsecond (hblk' rfl) _ _

/-! ### Runs of shell operations -/

/-- A shell operation, with the readings of the timer while it runs. -/
inductive ShellOp
  | saveFile (ticks : ℕ → ℕ) (stale : BitVec 64) (name data : CStr)
  | deleteFile (name : CStr)
  | logSave (ticks : ℕ → ℕ) (ring : CStr)
  | corpusCommit (ticks : ℕ → ℕ) (stack : ℕ → Byte) (prog seed : CStr)

/-- The filesystem after an operation. -/
def shellStep (s : FsState) : ShellOp → FsState
  | .saveFile ticks stale name data => (bSaveFile ticks stale s name data).2
  | .deleteFile name => (bDeleteFile s name).2
  | .logSave ticks ring => (ilSave ticks s ring).2
  | .corpusCommit ticks stack prog seed => (corpusCommit ticks stack s prog seed).2

/-- The first file that the operation would create, if it creates one, can be written. -/
def ShellOk (s : FsState) : ShellOp → Prop
  | .saveFile _ _ name data => FirstFileOk s name data.length
  | .deleteFile _ => True
  | .logSave _ ring =>
    ilWindow ring = [] ∨ FirstFileOk s (ascii "interact.log") (ilWindow ring).length
  | .corpusCommit ticks stack prog seed =>
    prog = [] ∨ FirstFileOk s (corpName (corpSeq stack s))
      (corpContent (ticks 0) stack s seed prog).length

theorem Sound.step (h : Sound s) {op : ShellOp} (hok : ShellOk s op) : Sound (shellStep s op) := by
  cases op with
  | saveFile ticks stale name data => exact bSaveFile_sound h ticks stale hok
  | deleteFile name => exact bDeleteFile_sound h name
  | logSave ticks ring =>
    rcases hok with hempty | hok
    · rw [shellStep, ilSave, hempty, List.length_nil, if_pos rfl]
      exact h
    · exact ilSave_sound h ticks hok
  | corpusCommit ticks stack prog seed =>
    rcases hok with rfl | hok
    · exact h
    · exact corpusCommit_sound h ticks stack hok

/-- After every operation of a run from a fresh disk the bitmap on disk marks every cluster of a
live inode, and a reboot offers none of them, as long as the first file of the disk is written
completely. -/
theorem bitmapSound_of_run {kmalloc kmalloc' : ℕ → Bool} {d : Drive} {s₀ : FsState}
    (hcovers : BitmapCovers d) (hformat : (fsFormat kmalloc d s₀).1 = true)
    (hmount : (fsMount kmalloc' (fsFormat kmalloc d s₀).2).1 = true) {s : FsState}
    (hrun : Run shellStep ShellOk (fsMount kmalloc' (fsFormat kmalloc d s₀).2).2 s) :
    BitmapSound s := by
  have hsound : Sound s := by
    refine hrun.invariant Sound ?_ fun s op h hok ↦ h.step hok
    obtain ⟨hinv, hroot⟩ := FsInv.initial hcovers hformat hmount
    refine ⟨hinv, fun i hi j _ hne ↦ ?_⟩
    rw [(hroot i hi).2, block_formatRoot] at hne
    exact absurd rfl hne
  exact DiskMarked.bitmapSound hsound.1 hsound.2

theorem bitmapSound_of_run_saved_file : BitmapSound
    (shellStep smallSession.fs (.saveFile (fun _ ↦ 0) 0 [0x61] (List.replicate 600 0x78))) := by
  refine bitmapSound_of_run smallDrive_covers smallDrive_formats smallDrive_mounts
    (Run.refl.snoc _ ?_)
  refine Or.inr (Or.inr (Or.inr (Or.inr (Or.inr ?_))))
  decide +kernel

/-- The first file is one byte larger than a file can be: the root inode keeps its new block, and the
bitmap on disk is still empty. -/
theorem bitmapSound_fails_after_failed_save : ∃ s,
    Run shellStep (fun _ _ ↦ True) smallSession.fs s ∧ ¬ BitmapSound s := by
  refine ⟨shellStep smallSession.fs (.saveFile (fun _ ↦ 0) 0 [0x61] (List.replicate 5121 0x78)),
    Run.refl.snoc _ trivial, fun h ↦ ?_⟩
  have hmarked := h.marked 0 0 (Or.inl (by decide +kernel)) (by decide) (by decide +kernel)
  exact absurd hmarked (by decide +kernel)

end NoOsKernel.Fs
