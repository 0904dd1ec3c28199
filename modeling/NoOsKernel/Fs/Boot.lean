import NoOsKernel.Fs.Regions
import NoOsKernel.Fs.Shell

/-!
# Reboot

A reboot keeps the sectors of the disk and nothing of RAM. On a drive of at least 64 sectors whose
file system was made by `fs_format`, `fs_init` finds the superblock `fs_format` wrote, whatever file
calls came in between, does not format the disk, and every name and every file reads as before
(`reboot_preserves`): the read path uses the disk and the superblock only.
-/

set_option autoImplicit false
set_option relaxedAutoImplicit false

namespace NoOsKernel.Fs

open Lib

/-- What a reboot leaves: the disk, and the zeroed globals. -/
def reboot (s : FsState) : FsState where
  disk := s.disk
  sb := Buf.zero 512
  inodeBitmap := []
  clusterBitmap := []
  mounted := false

/-- `fs_lookup` reads the disk, the superblock and the mounted flag. -/
theorem fsLookup_congr {s t : FsState} (hdisk : t.disk = s.disk) (hsb : t.sb = s.sb)
    (hmounted : t.mounted = s.mounted) (nm : CStr) : fsLookup t nm = fsLookup s nm := by
  obtain ⟨disk, sb, inodes, clusters, mounted⟩ := t
  dsimp only at hdisk hsb hmounted
  subst hdisk hsb hmounted
  have hscan : ∀ (root : FsInode) (test : Block → ℕ → Bool) (js : List ℕ),
      dirScan ⟨s.disk, s.sb, inodes, clusters, s.mounted⟩ root test js =
        dirScan s root test js := by
    intro root test js
    induction js with
    | nil => rfl
    | cons j rest ih => rw [dirScan, dirScan, ih]; rfl
  unfold fsLookup dirFindSlot
  rw [hscan]
  rfl

/-- `fs_read_file` reads the disk and the superblock. -/
theorem fsReadFile_congr {s t : FsState} (hdisk : t.disk = s.disk) (hsb : t.sb = s.sb)
    (ino : ℕ) (buf : ℕ → Byte) (max : ℕ) : fsReadFile t ino buf max = fsReadFile s ino buf max := by
  obtain ⟨disk, sb, inodes, clusters, mounted⟩ := t
  dsimp only at hdisk hsb
  subst hdisk hsb
  rfl

/-- `fs_init` on a disk with a file system that ends below the swap tail only mounts it. -/
theorem fsInit_eq_fsMount {kf km : ℕ → Bool} {d : Drive} {s : FsState} {sb : Block}
    (hread : readAnySb s = some sb) (hneeds : needsFormat d s = false) :
    fsInit true kf km d s = fsMount km { s with sb := sb } := by
  have hneeds' : needsFormat d { s with sb := sb } = false := hneeds
  rw [fsInit, if_neg (by decide), hread]
  exact if_neg (by rw [Option.getD_some, hneeds']; exact Bool.false_ne_true)

section Reboot

variable {kmalloc kmalloc' : ℕ → Bool} {d : Drive} {s₀ : FsState}

/-- After any run of file calls on a freshly formatted and mounted disk, `fs_init` on the rebooted
machine selects the superblock `fs_format` wrote and does not format the disk; once it has mounted
the disk, every name is found as before and every file reads as before. -/
theorem reboot_preserves (hd : 64 ≤ d.sectors) (hformat : (fsFormat kmalloc d s₀).1 = true)
    (hmount : (fsMount kmalloc' (fsFormat kmalloc d s₀).2).1 = true) {σ : Session}
    (hrun : Run Session.step FileCall (freshSession kmalloc kmalloc' d s₀) σ) :
    readAnySb (reboot σ.fs) = some (fsFormat kmalloc d s₀).2.sb ∧
      needsFormat d (reboot σ.fs) = false ∧
      ∀ kf km, (fsInit true kf km d (reboot σ.fs)).1 = true →
        (fsInit true kf km d (reboot σ.fs)).2.sb = (fsFormat kmalloc d s₀).2.sb ∧
        (fsInit true kf km d (reboot σ.fs)).2.disk = σ.fs.disk ∧
        (∀ nm, fsLookup (fsInit true kf km d (reboot σ.fs)).2 nm = fsLookup σ.fs nm) ∧
        ∀ ino buf max, fsReadFile (fsInit true kf km d (reboot σ.fs)).2 ino buf max =
          fsReadFile σ.fs ino buf max := by
  obtain ⟨hok, -⟩ := FileInv.run hd hformat hmount hrun
  rw [(fsFormat_any hformat).1]
  have hread : readAnySb (reboot σ.fs) = some (formattedSb d) :=
    readAnySb_of_copies hok.copies (valid_formattedSb d)
  have hneeds : needsFormat d (reboot σ.fs) = false := by
    obtain ⟨-, -, hfits, -⟩ := formattedSb_fits hd
    have husable := fsUsableBlocks_eq hd
    have hle := d.sectors_le
    rw [needsFormat, hread]
    dsimp only
    rw [hfits, Nat.mod_eq_of_lt (by omega)]
    exact decide_eq_false (lt_irrefl _)
  refine ⟨hread, hneeds, fun kf km hinit ↦ ?_⟩
  have hmounted : (fsInit true kf km d (reboot σ.fs)).2 =
      mountedState { reboot σ.fs with sb := formattedSb d } := by
    rw [fsInit_eq_fsMount hread hneeds] at hinit ⊢
    exact fsMount_of_readAnySb (readAnySb_of_copies hok.copies (valid_formattedSb d)) hinit
  rw [hmounted]
  set t := mountedState { reboot σ.fs with sb := formattedSb d } with ht
  have hdisk : t.disk = σ.fs.disk := rfl
  have hsb : t.sb = σ.fs.sb := hok.sb_eq.symm
  have hflag : t.mounted = σ.fs.mounted := hok.mounted.symm
  exact ⟨rfl, hdisk, fun nm ↦ fsLookup_congr hdisk hsb hflag nm,
    fun ino buf max ↦ fsReadFile_congr hdisk hsb ino buf max⟩

end Reboot

/-- The small drive with a file of two blocks. -/
def twoBlockFile : Session := sessionWithFile.step (.write 1 (fun _ ↦ 0x78) 600 7)

/-- A file of two blocks on the small drive survives a reboot. -/
theorem reboot_preserves_two_blocks :
    (fsInit true (fun _ ↦ true) (fun _ ↦ true) smallDrive (reboot twoBlockFile.fs)).1 = true ∧
    fsLookup twoBlockFile.fs [0x61] = 1 ∧
    (fsReadFile twoBlockFile.fs 1 (fun _ ↦ 0) 600).1 = 600 ∧
    (fsReadFile twoBlockFile.fs 1 (fun _ ↦ 0) 600).2 599 = 0x78 ∧
    (∀ nm, fsLookup (fsInit true (fun _ ↦ true) (fun _ ↦ true) smallDrive
      (reboot twoBlockFile.fs)).2 nm = fsLookup twoBlockFile.fs nm) ∧
    ∀ ino buf max, fsReadFile (fsInit true (fun _ ↦ true) (fun _ ↦ true) smallDrive
      (reboot twoBlockFile.fs)).2 ino buf max = fsReadFile twoBlockFile.fs ino buf max := by
  have hrun : Run Session.step FileCall smallSession twoBlockFile :=
    (Run.refl.snoc _ trivial).snoc _ isFile_sessionWithFile
  have hinit : (fsInit true (fun _ ↦ true) (fun _ ↦ true) smallDrive
      (reboot twoBlockFile.fs)).1 = true := by
    decide +kernel
  obtain ⟨-, -, hafter⟩ := reboot_preserves (by decide) smallDrive_formats smallDrive_mounts hrun
  obtain ⟨-, -, hlookup, hfile⟩ := hafter _ _ hinit
  exact ⟨hinit, by decide +kernel, by decide +kernel, by decide +kernel, hlookup, hfile⟩

end NoOsKernel.Fs
