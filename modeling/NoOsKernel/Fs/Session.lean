import NoOsKernel.Fs.DirOps
import NoOsKernel.Fs.Mount
import NoOsKernel.Lib.Runs

/-!
# Runs of the filesystem

The calls of `kernel/include/fs.h` as a transition system: creating, writing and removing files,
taking and returning clusters, flushing the bitmap and mounting again. A state is a filesystem with
the set of clusters that direct callers of `fs_alloc_cluster` hold.

Within a mount session every cluster has one owner (`clusterOwnership_of_session`), provided no
write is so large that `size + 511` wraps: such a call stores the size without a block.
-/

set_option autoImplicit false
set_option relaxedAutoImplicit false

namespace NoOsKernel.Fs

open Lib

/-! ### The directory -/

section View

variable (s : FsState)

/-- The inode number in entry `e` of directory block `bi`; `0` when the directory has no such
block. -/
def dirIno (bi e : ℕ) : ℕ :=
  if (rootLoad s).block bi = 0 then 0 else FsDirent.inode (s.cluster ((rootLoad s).block bi)) e

/-- The name in entry `e` of directory block `bi`. -/
def dirName (bi e : ℕ) : CStr := FsDirent.name (s.cluster ((rootLoad s).block bi)) e

/-- Entry `e` of directory block `bi` is live. -/
def LiveEntry (bi e : ℕ) : Prop := bi < fsMaxBlocks ∧ e < direntPerBlock ∧ dirIno s bi e ≠ 0

instance (bi e : ℕ) : Decidable (LiveEntry s bi e) := inferInstanceAs (Decidable (_ ∧ _))

/-- The inode of an existing file. -/
def IsFile (ino : ℕ) : Prop := ∃ bi e, LiveEntry s bi e ∧ dirIno s bi e = ino

/-- A live inode: the root's or a file's. -/
def LiveInode (ino : ℕ) : Prop := ino = s.rootInode ∨ IsFile s ino

end View

section Bridge

variable {s : FsState} {held : Finset ℕ}

/-- The directory has one block, so that its live entries are those of the invariant. -/
theorem liveEntry_iff (h : DirOk s) {bi e : ℕ} :
    LiveEntry s bi e ↔ bi = 0 ∧ e < direntPerBlock ∧ entryIno s e ≠ 0 := by
  constructor
  · rintro ⟨hbi, he, hne⟩
    rcases Nat.eq_zero_or_pos bi with rfl | hpos
    · exact ⟨rfl, he, hne⟩
    · exact absurd (if_pos (h.root_rest bi hpos hbi)) hne
  · rintro ⟨rfl, he, hne⟩
    exact ⟨by decide, he, hne⟩

theorem isFile_iff (h : DirOk s) {ino : ℕ} : IsFile s ino ↔ Live s ino ∧ ino ≠ 0 := by
  constructor
  · rintro ⟨bi, e, hlive, rfl⟩
    obtain ⟨rfl, he, hne⟩ := (liveEntry_iff h).mp hlive
    exact ⟨Or.inr ⟨e, he, rfl, hne⟩, hne⟩
  · rintro ⟨rfl | ⟨e, he, rfl, hne⟩, hpos⟩
    · exact absurd rfl hpos
    · exact ⟨0, e, (liveEntry_iff h).mpr ⟨rfl, he, hne⟩, rfl⟩

theorem liveInode_iff (h : FsInv s held) {ino : ℕ} : LiveInode s ino ↔ Live s ino := by
  have hroot : s.rootInode = 0 := h.base.sbOk.rootInode
  rw [LiveInode, isFile_iff h.dir, hroot]
  constructor
  · rintro (rfl | ⟨hlive, -⟩)
    · exact Live.root s
    · exact hlive
  · intro hlive
    by_cases hz : ino = 0
    · exact Or.inl hz
    · exact Or.inr ⟨hlive, hz⟩

end Bridge

/-! ### The transition system -/

/-- A mounted filesystem and the clusters its direct callers hold. -/
structure Session where
  fs : FsState
  held : Finset ℕ

/-- The calls of the filesystem interface. -/
inductive FsOp
  | create (nm : CStr) (mode ticks : ℕ)
  | write (ino : ℕ) (data : ℕ → Byte) (size ticks : ℕ)
  | unlink (nm : CStr)
  | allocCluster
  | freeCluster (c : ℕ)
  | sync
  | mount (kmalloc : ℕ → Bool)

/-- One call. A mount forgets the callers of the session before. -/
def Session.step (σ : Session) : FsOp → Session
  | .create nm mode ticks => ⟨(fsCreate σ.fs nm mode ticks).2, σ.held⟩
  | .write ino data size ticks => ⟨(fsWriteFile σ.fs ino data size ticks).2, σ.held⟩
  | .unlink nm => ⟨(fsUnlink σ.fs nm).2, σ.held⟩
  | .allocCluster =>
    match fsAllocCluster σ.fs with
    | none => σ
    | some (c, s) => ⟨s, insert c σ.held⟩
  | .freeCluster c => ⟨fsFreeCluster σ.fs c, σ.held.erase c⟩
  | .sync => ⟨fsSyncBitmap σ.fs, σ.held⟩
  | .mount kmalloc => ⟨(fsMount kmalloc σ.fs).2, ∅⟩

/-- The contract of the callers: files are written through the inode of a live entry, and a cluster
is freed by the caller that holds it. -/
def CallerOk (σ : Session) : FsOp → Prop
  | .write ino _ _ _ => IsFile σ.fs ino
  | .freeCluster c => c ∈ σ.held
  | _ => True

/-- Every call but a remount keeps the invariant. -/
theorem FsInv.step {σ : Session} (h : FsInv σ.fs σ.held) {op : FsOp} (hok : CallerOk σ op)
    (hmount : ∀ kmalloc, op ≠ .mount kmalloc) : FsInv (σ.step op).fs (σ.step op).held := by
  cases op with
  | create nm mode ticks => exact (fsCreate_spec h nm mode ticks).inv
  | write ino data size ticks =>
    obtain ⟨hlive, hne⟩ := (isFile_iff h.dir).mp hok
    exact (fsWriteFile_spec h hlive hne data size ticks).inv
  | unlink nm => exact (fsUnlink_spec h nm).inv
  | allocCluster =>
    rw [Session.step]
    split
    · exact h
    · rename_i c s halloc
      exact h.allocCluster halloc
  | freeCluster c => exact h.freeCluster hok
  | sync => exact h.syncBitmap
  | mount kmalloc => exact absurd rfl (hmount kmalloc)

/-! ### Cluster ownership within a session -/

/-- The block slots of an inode in use are a prefix of the array that holds the inode's size. -/
def SlotsHoldSize (i : FsInode) : Prop :=
  ∃ n ≤ fsMaxBlocks, (∀ j < fsMaxBlocks, i.block j ≠ 0 ↔ j < n) ∧ i.size ≤ n * fsBlockSize

/-- Every cluster of a live inode is marked and occurs once, the slots of each inode hold its size,
and live entries differ in name and inode. -/
structure ClusterOwnership (s : FsState) : Prop where
  marked : ∀ i j, LiveInode s i → j < fsMaxBlocks → (readInode s i).block j ≠ 0 →
    1 ≤ (readInode s i).block j ∧ (readInode s i).block j ≤ s.blockCount - 1 ∧
      bitGet s.clusterBitmap ((readInode s i).block j) = true
  once : ∀ i j i' j', LiveInode s i → LiveInode s i' → j < fsMaxBlocks → j' < fsMaxBlocks →
    (readInode s i).block j ≠ 0 → (readInode s i).block j = (readInode s i').block j' →
      i = i' ∧ j = j'
  slots : ∀ i, LiveInode s i → SlotsHoldSize (readInode s i)
  entries : ∀ bi e bi' e', LiveEntry s bi e → LiveEntry s bi' e' →
    dirName s bi e = dirName s bi' e' ∨ dirIno s bi e = dirIno s bi' e' → bi = bi' ∧ e = e'

/-- The sizes of the live inodes, as the invariant of a session keeps them. -/
def SizesOk (s : FsState) : Prop :=
  ∀ i, Live s i → (readInode s i).size ≤ fsMaxBlocks * fsBlockSize ∧
    ∀ j < fsMaxBlocks, j * fsBlockSize < (readInode s i).size → (readInode s i).block j ≠ 0

section Ownership

variable {s : FsState} {held : Finset ℕ}

/-- A prefix of used slots that reaches every block of the file holds its size. -/
theorem slotsHoldSize_of_pre {i : FsInode}
    (hpre : ∀ j, j + 1 < fsMaxBlocks → i.block (j + 1) ≠ 0 → i.block j ≠ 0)
    (hsize : i.size ≤ fsMaxBlocks * fsBlockSize)
    (hcover : ∀ j < fsMaxBlocks, j * fsBlockSize < i.size → i.block j ≠ 0) :
    SlotsHoldSize i := by
  obtain ⟨hn, hiff⟩ := usedSlots_of_prefix hpre
  refine ⟨usedSlots i, hn, hiff, ?_⟩
  by_contra hbig
  have hlt : usedSlots i < fsMaxBlocks := by
    by_contra hge
    have heq : usedSlots i = fsMaxBlocks := by omega
    rw [heq] at hbig
    exact hbig hsize
  have hused := (hiff _ hlt).mp (hcover _ hlt (by omega))
  exact absurd hused (lt_irrefl _)

/-- The invariant with the size bounds gives the ownership law. -/
theorem FsInv.clusterOwnership (h : FsInv s held) (hsizes : SizesOk s) : ClusterOwnership s where
  marked i j hi hj hne := by
    obtain ⟨hpos, hlt, hbit⟩ := FsInvOn.slot_marked h ((liveInode_iff h).mp hi) hj hne
    exact ⟨hpos, by omega, hbit⟩
  once i j i' j' hi hi' hj hj' hne heq :=
    FsInvOn.slot_inj h ((liveInode_iff h).mp hi) ((liveInode_iff h).mp hi') hj hj' hne heq
  slots i hi := by
    have hlive := (liveInode_iff h).mp hi
    exact slotsHoldSize_of_pre (h.slots_pre i hlive) (hsizes i hlive).1 (hsizes i hlive).2
  entries bi e bi' e' hlive hlive' heq := by
    obtain ⟨rfl, he, hne⟩ := (liveEntry_iff h.dir).mp hlive
    obtain ⟨rfl, he', hne'⟩ := (liveEntry_iff h.dir).mp hlive'
    exact ⟨rfl, h.dir.entry_inj e he e' he' hne hne' heq.symm⟩

/-- Sizes of live inodes that kept their contents. -/
theorem SizesOk.of_kept {t : FsState} (hsizes : SizesOk s) (hkept : ∀ i, Live t i → Kept s t i) :
    SizesOk t := fun i hi ↦ by
  rw [(hkept i hi).2]
  exact hsizes i (hkept i hi).1

end Ownership

/-- The calls of a mount session: the callers keep their contract, and the disk is not mounted
again. -/
def InSession (σ : Session) (op : FsOp) : Prop :=
  CallerOk σ op ∧ ∀ kmalloc, op ≠ .mount kmalloc

/-- The calls of a mount session in which the size of a write does not wrap when it is rounded up to
blocks. -/
def SessionOk (σ : Session) (op : FsOp) : Prop :=
  InSession σ op ∧ ∀ ino data size ticks, op = .write ino data size ticks →
    size + (fsBlockSize - 1) < 2 ^ 64

/-- The sizes after a call of the session. -/
theorem SizesOk.step {σ : Session} (h : FsInv σ.fs σ.held) (hsizes : SizesOk σ.fs) {op : FsOp}
    (hok : SessionOk σ op) : SizesOk (σ.step op).fs := by
  cases op with
  | create nm mode ticks =>
    have hspec := fsCreate_spec h nm mode ticks
    rw [Session.step]
    by_cases hr : (fsCreate σ.fs nm mode ticks).1 < 0
    · exact hsizes.of_kept (hspec.failed hr).2
    · obtain ⟨-, -, -, hsize, hblock, hothers⟩ := hspec.created (not_lt.mp hr)
      intro i hi
      by_cases hroot : i = 0
      · subst hroot
        rcases hspec.root.1 with ⟨hsame, -⟩ | ⟨-, hne, hfull, -⟩
        · rw [hsame]
          exact hsizes 0 (Live.root _)
        · rw [hspec.inv.base.rootLoad_eq] at hne hfull
          rw [hfull]
          refine ⟨by decide, fun j _ hj ↦ ?_⟩
          have hzero : j = 0 := by unfold fsBlockSize at hj; omega
          rwa [hzero]
      · by_cases hnew : i = (fsCreate σ.fs nm mode ticks).1.toNat
        · rw [hnew, hsize]
          exact ⟨Nat.zero_le _, fun j _ hj ↦ absurd hj (Nat.not_lt_zero _)⟩
        · obtain ⟨hlive, hread⟩ := hothers i hi hroot hnew
          rw [hread]
          exact hsizes i hlive
  | write ino data size ticks =>
    obtain ⟨⟨hfile, -⟩, hwrap⟩ := hok
    obtain ⟨hlive, hne⟩ := (isFile_iff h.dir).mp hfile
    have hspec := fsWriteFile_spec h hlive hne data size ticks
    rw [Session.step]
    intro i hi
    have hold := (hspec.dir.live i).mp hi
    by_cases hself : i = ino
    · subst hself
      rcases hret : (fsWriteFile σ.fs i data size ticks).1 with - | -
      · rw [(hspec.failed hret).1]
        exact hsizes i hlive
      · obtain ⟨hsize, hfits, hslots, -⟩ := hspec.stored hret
        have hwrap := hwrap _ _ _ _ rfl
        have hblocks : fileBlocks size = (size + 511) / 512 := by
          unfold fileBlocks fsBlockSize
          unfold fsBlockSize at hwrap
          rw [Nat.mod_eq_of_lt (by omega)]
          rfl
        rw [hsize, Nat.mod_eq_of_lt (by omega)]
        rw [hblocks] at hfits hslots
        unfold fsMaxBlocks fsBlockSize at *
        exact ⟨by omega, fun j hj hlt ↦ (hslots j hj).mpr (by omega)⟩
    · rw [hspec.others i hold hself]
      exact hsizes i hold
  | unlink nm => exact hsizes.of_kept (fsUnlink_spec h nm).kept
  | allocCluster =>
    rw [Session.step]
    split
    · exact hsizes
    · rename_i c s halloc
      obtain ⟨-, rfl⟩ := fsAllocCluster_eq_some h.base.mounted halloc
      exact hsizes
  | freeCluster c =>
    rw [Session.step, fsFreeCluster]
    split_ifs
    · exact hsizes
    · exact hsizes
  | sync =>
    refine hsizes.of_kept fun i hi ↦ ?_
    have hlive := ((sameDir_fsSyncBitmap h).live i).mp hi
    exact ⟨hlive, readInode_fsSyncBitmap h.base.sbOk (h.dir.live_lt hlive)⟩
  | mount kmalloc => exact absurd rfl (hok.1.2 kmalloc)

/-- A freshly formatted and mounted filesystem, no cluster taken. -/
def freshSession (kmalloc kmalloc' : ℕ → Bool) (d : Drive) (s : FsState) : Session :=
  ⟨(fsMount kmalloc' (fsFormat kmalloc d s).2).2, ∅⟩

section Fresh

variable {kmalloc kmalloc' : ℕ → Bool} {d : Drive} {s₀ : FsState} (hcovers : BitmapCovers d)
  (hformat : (fsFormat kmalloc d s₀).1 = true)
  (hmount : (fsMount kmalloc' (fsFormat kmalloc d s₀).2).1 = true)

include hcovers hformat hmount

theorem FsInv.fresh : FsInv (freshSession kmalloc kmalloc' d s₀).fs
    (freshSession kmalloc kmalloc' d s₀).held :=
  (FsInv.initial hcovers hformat hmount).1

theorem SizesOk.fresh : SizesOk (freshSession kmalloc kmalloc' d s₀).fs := by
  intro i hi
  have hroot : readInode (freshSession kmalloc kmalloc' d s₀).fs i = formatRoot :=
    ((FsInv.initial hcovers hformat hmount).2 i hi).2
  rw [hroot, size_formatRoot]
  exact ⟨Nat.zero_le _, fun j _ hj ↦ absurd hj (Nat.not_lt_zero _)⟩

/-- In every state a mount session reaches from a fresh disk whose clusters all have a bitmap bit,
each cluster has one owner and each file the clusters for its size. -/
theorem clusterOwnership_of_session {σ : Session}
    (hrun : Run Session.step SessionOk (freshSession kmalloc kmalloc' d s₀) σ) :
    ClusterOwnership σ.fs := by
  obtain ⟨hinv, hsizes⟩ := hrun.invariant (fun σ ↦ FsInv σ.fs σ.held ∧ SizesOk σ.fs)
    ⟨FsInv.fresh hcovers hformat hmount, SizesOk.fresh hcovers hformat hmount⟩
    fun σ op ⟨h, hsizes⟩ hok ↦ ⟨h.step hok.1.1 hok.1.2, hsizes.step h hok⟩
  exact hinv.clusterOwnership hsizes

end Fresh

section Example

/-- A drive of 64 sectors: nine clusters behind one bitmap block. -/
def smallDrive : Drive := ⟨64, by decide⟩

/-- A blank disk before it is formatted. -/
def blankDisk : FsState := ⟨fun _ ↦ Buf.zero 512, Buf.zero 512, [], [], false⟩

/-- The first session on the small drive. -/
def smallSession : Session := freshSession (fun _ ↦ true) (fun _ ↦ true) smallDrive blankDisk

/-- The session after a file `a` was created: its inode is 1. -/
def sessionWithFile : Session := smallSession.step (.create [0x61] fsInodeReg 0)

/-- The small drive can be formatted and mounted and has room then, and the file `a` is found. -/
theorem smallDrive_ready : (BitmapCovers smallDrive ∧
    (fsFormat (fun _ ↦ true) smallDrive blankDisk).1 = true ∧
    (fsMount (fun _ ↦ true) (fsFormat (fun _ ↦ true) smallDrive blankDisk).2).1 = true) ∧
    ((0 < 1 ∧ 1 < smallSession.fs.inodeCount ∧ bitGet smallSession.fs.inodeBitmap 1 = false) ∧
      (0 < 1 ∧ 1 < smallSession.fs.blockCount ∧ bitGet smallSession.fs.clusterBitmap 1 = false) ∧
      fsLookup smallSession.fs [0x61] = -1) ∧
    (LiveEntry sessionWithFile.fs 0 0 ∧ dirIno sessionWithFile.fs 0 0 = 1) ∧
      fsLookup sessionWithFile.fs [0x61] = (1 : ℕ) := by
  decide +kernel

theorem smallDrive_covers : BitmapCovers smallDrive := smallDrive_ready.1.1

theorem smallDrive_formats : (fsFormat (fun _ ↦ true) smallDrive blankDisk).1 = true :=
  smallDrive_ready.1.2.1

theorem smallDrive_mounts :
    (fsMount (fun _ ↦ true) (fsFormat (fun _ ↦ true) smallDrive blankDisk).2).1 = true :=
  smallDrive_ready.1.2.2

theorem isFile_sessionWithFile : IsFile sessionWithFile.fs 1 := ⟨0, 0, smallDrive_ready.2.2.1⟩

theorem clusterOwnership_of_session_two_blocks :
    ClusterOwnership (sessionWithFile.step (.write 1 (fun _ ↦ 0x78) 600 7)).fs := by
  refine clusterOwnership_of_session smallDrive_covers smallDrive_formats smallDrive_mounts
    ((Run.refl.snoc _ ⟨⟨trivial, fun _ ↦ nofun⟩, nofun⟩).snoc _
      ⟨⟨isFile_sessionWithFile, fun _ ↦ nofun⟩, ?_⟩)
  rintro _ _ _ _ ⟨⟩
  decide

/-- A write of `2 ^ 64 - 1` bytes stores that size in an inode without a block. -/
theorem clusterOwnership_fails_of_wrapping_size : ∃ σ,
    Run Session.step InSession smallSession σ ∧ ¬ ClusterOwnership σ.fs := by
  refine ⟨sessionWithFile.step (.write 1 (fun _ ↦ 0x78) (2 ^ 64 - 1) 7), ?_, fun h ↦ ?_⟩
  · exact (Run.refl.snoc _ ⟨trivial, fun _ ↦ nofun⟩).snoc _
      ⟨isFile_sessionWithFile, fun _ ↦ nofun⟩
  · have hsize : (readInode (sessionWithFile.step
        (.write 1 (fun _ ↦ 0x78) (2 ^ 64 - 1) 7)).fs 1).size = 2 ^ 64 - 1 := by decide +kernel
    obtain ⟨n, hn, -, hle⟩ := h.slots 1 (Or.inr ⟨0, 0, by decide +kernel, by decide +kernel⟩)
    rw [hsize] at hle
    unfold fsMaxBlocks at hn
    unfold fsBlockSize at hle
    omega

end Example

end NoOsKernel.Fs
