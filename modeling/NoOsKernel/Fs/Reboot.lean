import NoOsKernel.Fs.Session

/-!
# Inodes across remounts

`fs_mount` reads the cluster bitmap from disk, but the inode bitmap lives in RAM only and starts
with nothing but the root marked. A remount therefore forgets the inodes of the files on disk, and
the next `fs_create` hands one of them out again (`inodeUniqueness_fails_after_remount`). Runs that
mount again only while no file exists, with the root's block marked on disk, keep every live entry
on an inode of its own (`inodeUniqueness_of_run`).
-/

set_option autoImplicit false
set_option relaxedAutoImplicit false

namespace NoOsKernel.Fs

open Lib

/-- Every live entry's inode is marked in use, and entries with different names have different
inodes. -/
structure InodeUniqueness (s : FsState) : Prop where
  marked : ∀ bi e, LiveEntry s bi e → bitGet s.inodeBitmap (dirIno s bi e) = true
  distinct : ∀ bi e bi' e', LiveEntry s bi e → LiveEntry s bi' e' →
    dirName s bi e ≠ dirName s bi' e' → dirIno s bi e ≠ dirIno s bi' e'

theorem FsInv.inodeUniqueness {s : FsState} {held : Finset ℕ} (h : FsInv s held) :
    InodeUniqueness s where
  marked bi e hlive := by
    obtain ⟨rfl, he, hne⟩ := (liveEntry_iff h.dir).mp hlive
    exact (h.dir.entry_ok e he hne).2.1
  distinct bi e bi' e' hlive hlive' hname hino := by
    obtain ⟨rfl, he, hne⟩ := (liveEntry_iff h.dir).mp hlive
    obtain ⟨rfl, he', hne'⟩ := (liveEntry_iff h.dir).mp hlive'
    obtain rfl := h.dir.entry_inj e he e' he' hne hne' (Or.inl hino)
    exact hname rfl

/-- A disk that can be mounted again without losing track of anything: there is memory for the
bitmaps, no file exists, and the bitmap on disk marks the block of the root directory. -/
def RemountOk (kmalloc : ℕ → Bool) (s : FsState) : Prop :=
  (kmalloc (s.bitmapBlocks * fsBlockSize) = true ∧ kmalloc ((fsInodeCount + 7) / 8) = true) ∧
    (∀ bi e, ¬ LiveEntry s bi e) ∧
    ((rootLoad s).block 0 ≠ 0 → bitGet s.diskBitmap ((rootLoad s).block 0) = true)

/-- The calls of a run with remounts. -/
def RebootOk (σ : Session) (op : FsOp) : Prop :=
  CallerOk σ op ∧ ∀ kmalloc, op = .mount kmalloc → RemountOk kmalloc σ.fs

/-- `fs_mount` of a valid disk succeeds when both bitmaps get their memory. -/
theorem fsMount_ok {kmalloc : ℕ → Bool} {s : FsState} (h : DiskOk s)
    (hbitmap : kmalloc (s.bitmapBlocks * fsBlockSize) = true)
    (hinode : kmalloc ((fsInodeCount + 7) / 8) = true) : (fsMount kmalloc s).1 = true := by
  rw [fsMount, readAnySb_eq h]
  dsimp only
  rw [hbitmap, hinode]
  rfl

/-- A remount under the condition starts a session with the invariant. -/
theorem FsInv.remount {kmalloc : ℕ → Bool} {s : FsState} {held : Finset ℕ} (h : FsInv s held)
    (hok : RemountOk kmalloc s) : FsInv (fsMount kmalloc s).2 ∅ := by
  obtain ⟨⟨hbitmap, hinode⟩, hempty, hroot⟩ := hok
  rw [fsMount_eq h.base.diskOk (fsMount_ok h.base.diskOk hbitmap hinode)]
  refine FsInv.mount h.base.diskOk ⟨h.dir.root_size, h.dir.root_rest, fun e he ↦ ?_, fun hne ↦ ?_⟩
  · by_contra hne
    exact hempty 0 e ((liveEntry_iff h.dir).mpr ⟨rfl, he, hne⟩)
  · exact ⟨(FsInvOn.dir_marked h hne).2.1, hroot hne⟩

/-- In every state a run reaches from a fresh disk, remounts included, live entries have marked
inodes of their own, as long as every remount finds a disk without files whose bitmap marks the
directory's block. -/
theorem inodeUniqueness_of_run {kmalloc kmalloc' : ℕ → Bool} {d : Drive} {s₀ : FsState}
    (hcovers : BitmapCovers d) (hformat : (fsFormat kmalloc d s₀).1 = true)
    (hmount : (fsMount kmalloc' (fsFormat kmalloc d s₀).2).1 = true) {σ : Session}
    (hrun : Run Session.step RebootOk (freshSession kmalloc kmalloc' d s₀) σ) :
    InodeUniqueness σ.fs := by
  have hinv : FsInv σ.fs σ.held := by
    refine hrun.invariant (fun σ ↦ FsInv σ.fs σ.held) (FsInv.fresh hcovers hformat hmount) ?_
    intro σ op h hok
    by_cases hop : ∃ kmalloc, op = .mount kmalloc
    · obtain ⟨kmalloc, rfl⟩ := hop
      exact h.remount (hok.2 kmalloc rfl)
    · exact h.step hok.1 fun kmalloc heq ↦ hop ⟨kmalloc, heq⟩
  exact hinv.inodeUniqueness

/-- A run that removes its file, flushes and mounts again before it creates the next. -/
theorem inodeUniqueness_of_run_remount_empty : InodeUniqueness
    ((((sessionWithFile.step (.unlink [0x61])).step .sync).step (.mount fun _ ↦ true)).step
      (.create [0x62] fsInodeReg 0)).fs := by
  have hcreate : ∀ σ nm, RebootOk σ (.create nm fsInodeReg 0) := fun _ _ ↦
    ⟨trivial, fun _ ↦ nofun⟩
  have hunlink : ∀ σ nm, RebootOk σ (.unlink nm) := fun _ _ ↦ ⟨trivial, fun _ ↦ nofun⟩
  have hsync : ∀ σ, RebootOk σ .sync := fun _ ↦ ⟨trivial, fun _ ↦ nofun⟩
  have hremount : RebootOk ((sessionWithFile.step (.unlink [0x61])).step .sync)
      (.mount fun _ ↦ true) := by
    refine ⟨trivial, fun _ hop ↦ ?_⟩
    injection hop with hop
    subst hop
    have hnone : ∀ bi < fsMaxBlocks, ∀ e < direntPerBlock,
        ¬ LiveEntry ((sessionWithFile.step (.unlink [0x61])).step .sync).fs bi e := by
      decide +kernel
    exact ⟨⟨rfl, rfl⟩, fun bi e hlive ↦ hnone bi hlive.1 e hlive.2.1 hlive,
      fun _ ↦ by decide +kernel⟩
  exact inodeUniqueness_of_run smallDrive_covers smallDrive_formats smallDrive_mounts
    (((((Run.refl.snoc _ (hcreate _ _)).snoc _ (hunlink _ _)).snoc _
      (hsync _)).snoc _ hremount).snoc _ (hcreate _ _))

/-- After a remount `fs_create` gives the second file the inode of the first. -/
theorem inodeUniqueness_fails_after_remount : ∃ σ,
    Run Session.step CallerOk smallSession σ ∧ ¬ InodeUniqueness σ.fs := by
  refine ⟨((sessionWithFile.step .sync).step (.mount fun _ ↦ true)).step
    (.create [0x62] fsInodeReg 0), ?_, fun h ↦ ?_⟩
  · exact (((Run.refl.snoc _ trivial).snoc _ trivial).snoc _ trivial).snoc _ trivial
  · exact h.distinct 0 0 0 1 (by decide +kernel) (by decide +kernel) (by decide +kernel)
      (by decide +kernel)

end NoOsKernel.Fs
