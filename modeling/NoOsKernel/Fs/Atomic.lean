import NoOsKernel.Fs.Exits
import Mathlib.Data.Finset.Prod

/-!
# When `fs_create` and `fs_write_file` fail

`fs_create` of a name that is not there needs a clear inode, a name of 1 to 24 bytes and room in the
directory (`fsCreate_ok_iff`). The directory never gets a second block, so that it is full with 16
entries (`create_succeeds_iff`).

A call that fails is not undone: `fs_create` keeps the mark of the inode it took, and
`fs_write_file` the marks of the clusters it took and the blocks it wrote. `failures_atomic_iff`
says for which calls nothing is left behind.
-/

set_option autoImplicit false
set_option relaxedAutoImplicit false

namespace NoOsKernel.Fs

open Lib

variable {s t : FsState} {held : Finset ℕ} {nm : CStr} {ino : ℕ}

/-! ### Room for an entry -/

/-- The directory has a free entry in its block, or no block and a cluster for one. -/
def DirRoom (s : FsState) : Prop :=
  (rootLoad s).block 0 = 0 ∧ 0 < freeClusters s ∨
    (rootLoad s).block 0 ≠ 0 ∧ ∃ e < direntPerBlock, entryIno s e = 0

theorem dirRoom_takenInode (h : FsInv s held) (hino : firstClear s.inodeBitmap 1 256 = some ino)
    (mode ticks : ℕ) : DirRoom (takenInode s ino mode ticks) ↔ DirRoom s := by
  obtain ⟨-, hdir⟩ := h.takenInode hino mode ticks
  have hcount : freeClusters (takenInode s ino mode ticks) = freeClusters s := rfl
  unfold DirRoom
  rw [hdir.root, hcount]
  simp only [hdir.entryIno]

theorem AddExit.ok_iff (h : FsInv s held) {type : ℕ} {ok : Bool}
    (hexit : AddExit s nm ino type ok t) :
    ok = true ↔ (nm.length ≠ 0 ∧ nm.length ≤ fsNameMax) ∧ DirRoom s := by
  cases hexit with
  | badName hname =>
    refine iff_of_false Bool.false_ne_true fun hok ↦ ?_
    have hlen := hok.1
    omega
  | noCluster _ hblk hfull =>
    refine iff_of_false Bool.false_ne_true ?_
    rintro ⟨-, ⟨-, hfree⟩ | ⟨hused, -⟩⟩
    · omega
    · exact hused hblk
  | dirFull _ hblk hfull =>
    refine iff_of_false Bool.false_ne_true ?_
    rintro ⟨-, ⟨hzero, -⟩ | ⟨-, e, he, hfree⟩⟩
    · exact hblk hzero
    · exact hfull e he hfree
  | entry hname hblk he hfree => exact iff_of_true rfl ⟨hname, Or.inr ⟨hblk, _, he, hfree⟩⟩
  | first hname hblk hfirst _ =>
    obtain ⟨hpos, hlt, hclear⟩ := firstClear_eq_some hfirst
    have hcount := clearCount_bitSet hpos hlt (h.base.cluster_lt_bitLen hlt) hclear
    refine iff_of_true rfl ⟨hname, Or.inl ⟨hblk, ?_⟩⟩
    unfold freeClusters
    omega

/-- `fs_create` succeeds on a new name of 1 to 24 bytes when there is an inode and room in the
directory. -/
theorem fsCreate_ok_iff (h : FsInv s held) (nm : CStr) (mode ticks : ℕ) :
    0 ≤ (fsCreate s nm mode ticks).1 ↔ fsLookup s nm = -1 ∧
      firstClear s.inodeBitmap 1 256 ≠ none ∧ (nm.length ≠ 0 ∧ nm.length ≤ fsNameMax) ∧
      DirRoom s := by
  have hexit := fsCreate_exit h nm mode ticks
  revert hexit
  generalize (fsCreate s nm mode ticks).1 = r, (fsCreate s nm mode ticks).2 = t
  intro hexit
  cases hexit with
  | known hfound =>
    refine iff_of_false (by decide) ?_
    rintro ⟨hnew, -⟩
    omega
  | noInode _ hfull => exact iff_of_false (by decide) fun hok ↦ hok.2.1 hfull
  | noEntry _ hino hadd =>
    refine iff_of_false (by decide) fun hok ↦ ?_
    have hroom := (hadd.ok_iff (h.takenInode hino mode ticks).1).mpr
    rw [dirRoom_takenInode h hino] at hroom
    exact Bool.false_ne_true (hroom hok.2.2)
  | created hnew hino hadd =>
    have hroom := (hadd.ok_iff (h.takenInode hino mode ticks).1).mp rfl
    rw [dirRoom_takenInode h hino] at hroom
    exact iff_of_true (Int.natCast_nonneg _) ⟨hnew, by rw [hino]; nofun, hroom⟩

/-! ### The capacity of the directory -/

/-- The number of live entries in the ten blocks a directory can have. -/
def liveEntries (s : FsState) : ℕ :=
  ((Finset.range fsMaxBlocks ×ˢ Finset.range direntPerBlock).filter
    fun p ↦ LiveEntry s p.1 p.2).card

/-- The live entries all stand in the first block. -/
theorem liveEntries_eq (h : DirOk s) :
    liveEntries s = ((Finset.range direntPerBlock).filter fun e ↦ entryIno s e ≠ 0).card := by
  have hfirst : (Finset.range fsMaxBlocks ×ˢ Finset.range direntPerBlock).filter
      (fun p ↦ LiveEntry s p.1 p.2) =
      ((Finset.range direntPerBlock).filter fun e ↦ entryIno s e ≠ 0).map
        ⟨Prod.mk 0, Prod.mk_right_injective 0⟩ := by
    ext ⟨bi, e⟩
    simp only [Finset.mem_filter, Finset.mem_product, Finset.mem_range, Finset.mem_map,
      Function.Embedding.coeFn_mk, Prod.mk.injEq, liveEntry_iff h]
    constructor
    · rintro ⟨-, rfl, he, hne⟩
      exact ⟨e, ⟨he, hne⟩, rfl, rfl⟩
    · rintro ⟨e', ⟨he, hne⟩, rfl, rfl⟩
      exact ⟨⟨by decide, he⟩, rfl, he, hne⟩
  rw [liveEntries, hfirst, Finset.card_map]

theorem liveEntries_lt_iff (h : DirOk s) :
    liveEntries s < direntPerBlock ↔ ∃ e < direntPerBlock, entryIno s e = 0 := by
  have hle := Finset.card_filter_le (Finset.range direntPerBlock) fun e ↦ entryIno s e ≠ 0
  have hfull := @Finset.card_filter_eq_iff _ (Finset.range direntPerBlock)
    (fun e ↦ entryIno s e ≠ 0) _
  rw [Finset.card_range] at hle hfull
  rw [liveEntries_eq h, lt_iff_le_and_ne, and_iff_right hle, Ne, hfull]
  simp only [Finset.mem_range, not_forall, not_not, exists_prop]

section Capacity

variable {kmalloc kmalloc' : ℕ → Bool} {d : Drive} {s₀ : FsState} {σ : Session}

/-- In a state of a mount session with a free inode and a free cluster, a new name of 1 to 24 bytes
can be created if and only if the directory has fewer than 16 entries. -/
theorem create_succeeds_iff (hcovers : BitmapCovers d)
    (hformat : (fsFormat kmalloc d s₀).1 = true)
    (hmount : (fsMount kmalloc' (fsFormat kmalloc d s₀).2).1 = true)
    (hrun : Run Session.step InSession (freshSession kmalloc kmalloc' d s₀) σ)
    (hinode : ∃ i, 0 < i ∧ i < σ.fs.inodeCount ∧ bitGet σ.fs.inodeBitmap i = false)
    (hcluster : ∃ c, 0 < c ∧ c < σ.fs.blockCount ∧ bitGet σ.fs.clusterBitmap c = false)
    (hfresh : fsLookup σ.fs nm = -1) (hname : 1 ≤ nm.length ∧ nm.length ≤ 24)
    (mode ticks : ℕ) :
    0 ≤ (fsCreate σ.fs nm mode ticks).1 ↔ liveEntries σ.fs < direntPerBlock := by
  have h := FsInv.run hcovers hformat hmount hrun
  obtain ⟨i, hipos, hilt, hiclear⟩ := hinode
  obtain ⟨c, hcpos, hclt, hcclear⟩ := hcluster
  have hcount : σ.fs.inodeCount = 256 := h.base.sbOk.inodeCount
  have hsome : firstClear σ.fs.inodeBitmap 1 256 ≠ none := fun hnone ↦ by
    have hset := bitGet_of_firstClear_eq_none hnone hipos (hcount ▸ hilt)
    rw [hiclear] at hset
    exact Bool.false_ne_true hset
  have hfree : 0 < freeClusters σ.fs := by
    have hone : 1 ≤ c := hcpos
    have hbit := clearCount_bitSet hone hclt (h.base.cluster_lt_bitLen hclt) hcclear
    unfold freeClusters
    omega
  rw [fsCreate_ok_iff h, liveEntries_lt_iff h.dir]
  constructor
  · rintro ⟨-, -, -, ⟨hblk, -⟩ | ⟨-, hroom⟩⟩
    · exact ⟨0, by decide, entryIno_of_eq hblk 0⟩
    · exact hroom
  · intro hroom
    refine ⟨hfresh, hsome, ⟨by omega, hname.2⟩, ?_⟩
    by_cases hblk : (rootLoad σ.fs).block 0 = 0
    · exact Or.inl ⟨hblk, hfree⟩
    · exact Or.inr ⟨hblk, hroom⟩

end Capacity

/-- The session after creating files one by one. -/
def createAll (σ : Session) (names : List CStr) : Session :=
  names.foldl (fun σ nm ↦ σ.step (.create nm fsInodeReg 0)) σ

theorem run_createAll {σ₀ σ : Session} (hrun : Run Session.step InSession σ₀ σ)
    (names : List CStr) : Run Session.step InSession σ₀ (createAll σ names) := by
  induction names generalizing σ with
  | nil => exact hrun
  | cons nm rest ih => exact ih (hrun.snoc _ ⟨trivial, fun _ ↦ nofun⟩)

/-- The small drive with the files `a`, `b` and `c`. -/
def threeFiles : Session := createAll smallSession [[0x61], [0x62], [0x63]]

theorem threeFiles_ready :
    (0 < 4 ∧ 4 < threeFiles.fs.inodeCount ∧ bitGet threeFiles.fs.inodeBitmap 4 = false) ∧
      (0 < 2 ∧ 2 < threeFiles.fs.blockCount ∧ bitGet threeFiles.fs.clusterBitmap 2 = false) ∧
      fsLookup threeFiles.fs [0x64] = -1 ∧ liveEntries threeFiles.fs = 3 := by
  decide +kernel

/-- A fourth file can be created. -/
theorem create_succeeds_iff_fourth : 0 ≤ (fsCreate threeFiles.fs [0x64] fsInodeReg 0).1 := by
  obtain ⟨hinode, hcluster, hfresh, hlive⟩ := threeFiles_ready
  have hroom : liveEntries threeFiles.fs < direntPerBlock := by
    rw [hlive]
    decide
  exact (create_succeeds_iff smallDrive_covers smallDrive_formats smallDrive_mounts
    (run_createAll Run.refl _) ⟨4, hinode⟩ ⟨2, hcluster⟩ hfresh (by decide) _ _).mpr hroom

/-- The small drive with files `a` to `p`. -/
def fullDirectory : Session :=
  createAll smallSession ((List.range 16).map fun k ↦ [BitVec.ofNat 8 (0x61 + k)])

/-- With 16 entries, and inodes and clusters left, a seventeenth file cannot be created. -/
theorem create_fails_on_fullDirectory :
    Run Session.step InSession smallSession fullDirectory ∧
      liveEntries fullDirectory.fs = 16 ∧
      (0 < 17 ∧ 17 < fullDirectory.fs.inodeCount ∧
        bitGet fullDirectory.fs.inodeBitmap 17 = false) ∧
      (0 < 2 ∧ 2 < fullDirectory.fs.blockCount ∧
        bitGet fullDirectory.fs.clusterBitmap 2 = false) ∧
      fsLookup fullDirectory.fs [0x71] = -1 ∧
      (fsCreate fullDirectory.fs [0x71] fsInodeReg 0).1 = -1 :=
  ⟨run_createAll Run.refl _, by decide +kernel⟩

/-! ### What a failed `fs_create` leaves -/

/-- The two RAM bitmaps are as before, but for the mark of a first block of the directory. -/
def BitmapsKept (s t : FsState) : Prop :=
  t.inodeBitmap = s.inodeBitmap ∧ (t.clusterBitmap = s.clusterBitmap ∨
    (rootLoad s).block 0 = 0 ∧ (rootLoad t).block 0 ≠ 0 ∧
      t.clusterBitmap = bitSet s.clusterBitmap ((rootLoad t).block 0))

/-- `fs_create` stops before it takes an inode, or does not fail. -/
def CreateAtomic (s : FsState) (nm : CStr) : Prop :=
  0 ≤ fsLookup s nm ∨ firstClear s.inodeBitmap 1 256 = none ∨
    (nm.length ≠ 0 ∧ nm.length ≤ fsNameMax) ∧ DirRoom s

theorem AddExit.eq_of_false {type : ℕ} (hexit : AddExit s nm ino type false t) : t = s := by
  cases hexit with
  | badName => rfl
  | noCluster => rfl
  | dirFull => rfl

/-- A failed `fs_create` that took an inode keeps its mark. -/
theorem not_bitmapsKept_takenInode (h : FsInv s held)
    (hino : firstClear s.inodeBitmap 1 256 = some ino) (mode ticks : ℕ) :
    ¬ BitmapsKept s (takenInode s ino mode ticks) := by
  rintro ⟨hinodes, -⟩
  obtain ⟨-, hlt, hclear⟩ := firstClear_eq_some hino
  change bitSet s.inodeBitmap ino = s.inodeBitmap at hinodes
  have hset := bitGet_bitSet (h.base.inode_lt_bitLen hlt) ino
  rw [hinodes, hclear, decide_eq_true rfl, Bool.true_or] at hset
  exact Bool.false_ne_true hset

theorem createAtomic_iff (h : FsInv s held) (nm : CStr) (mode ticks : ℕ) :
    ((fsCreate s nm mode ticks).1 = -1 → BitmapsKept s (fsCreate s nm mode ticks).2) ↔
      CreateAtomic s nm := by
  have hexit := fsCreate_exit h nm mode ticks
  revert hexit
  generalize (fsCreate s nm mode ticks).1 = r, (fsCreate s nm mode ticks).2 = t
  intro hexit
  cases hexit with
  | known hfound => exact iff_of_true (fun _ ↦ ⟨rfl, Or.inl rfl⟩) (Or.inl hfound)
  | noInode _ hfull => exact iff_of_true (fun _ ↦ ⟨rfl, Or.inl rfl⟩) (Or.inr (Or.inl hfull))
  | noEntry hnew hino hadd =>
    rw [hadd.eq_of_false]
    refine iff_of_false (fun hkept ↦ not_bitmapsKept_takenInode h hino mode ticks (hkept rfl)) ?_
    have hroom := (hadd.ok_iff (h.takenInode hino mode ticks).1).mpr
    rw [dirRoom_takenInode h hino] at hroom
    rintro (hfound | hfull | hok)
    · omega
    · rw [hino] at hfull
      exact Option.some_ne_none _ hfull
    · exact Bool.false_ne_true (hroom hok)
  | created hnew hino hadd =>
    have hroom := (hadd.ok_iff (h.takenInode hino mode ticks).1).mp rfl
    rw [dirRoom_takenInode h hino] at hroom
    exact iff_of_true (fun hfail ↦ absurd hfail (by omega)) (Or.inr (Or.inr hroom))

/-! ### What a failed `fs_write_file` leaves -/

/-- The cluster bitmap, an inode and the contents of every file are as before. -/
def FilesKept (s t : FsState) (ino : ℕ) : Prop :=
  t.clusterBitmap = s.clusterBitmap ∧ readInode t ino = readInode s ino ∧
    ∀ k, IsFile s k → ∀ buf max, fsReadFile t k buf max = fsReadFile s k buf max

/-- `fs_write_file` stops before it changes anything, or does not fail, or has no cluster to take and
overwrites the blocks of the file with what they hold. -/
def WriteAtomic (s : FsState) (ino : ℕ) (data : ℕ → Byte) (size : ℕ) : Prop :=
  fsMaxBlocks < fileBlocks size ∨
    fileBlocks size ≤ usedSlots (readInode s ino) + freeClusters s ∨
    freeClusters s = 0 ∧ ∀ max, (fsReadFile s ino data max).2 = data

section Write

variable {data : ℕ → Byte} {size n : ℕ} {i' : FsInode}

theorem fileBlocks_mul_le (size : ℕ) : fileBlocks size * fsBlockSize ≤ size + 511 :=
  (Nat.div_mul_le_self _ _).trans (Nat.mod_le _ _)

/-- A write that ran out of clusters has overwritten the blocks of the file with the new bytes. -/
theorem OutOfClusters.overwritten (hout : OutOfClusters data size s ino n t i') (h : FsInv s held)
    (hlive : Live s ino) : usedSlots (readInode s ino) ≤ n ∧
      ∀ j < usedSlots (readInode s ino),
        t.cluster ((readInode s ino).block j) = fileBlock data size j := by
  obtain ⟨hused, hslots⟩ := usedSlots_of_prefix (h.slots_pre ino hlive)
  have hn : n < fsMaxBlocks := hout.lt.trans_le hout.small
  have hle : usedSlots (readInode s ino) ≤ n := by
    rw [← not_lt, ← hslots n hn, not_not]
    by_contra hz
    exact hz (by rw [← hout.wrote.same n (Or.inr (Or.inr hz)), hout.empty])
  refine ⟨hle, fun j hj ↦ ?_⟩
  have hne : (readInode s ino).block j ≠ 0 := (hslots j (by omega)).mpr hj
  rw [← hout.wrote.same j (Or.inr (Or.inr hne)),
    hout.wrote.written j (Nat.zero_le j) (by omega)]

/-- Where no cluster was free, such a write has taken none. -/
theorem OutOfClusters.clusterBitmap_eq (hout : OutOfClusters data size s ino n t i')
    (h : FsInv s held) (hlive : Live s ino) (hnone : freeClusters s = 0) :
    t.clusterBitmap = s.clusterBitmap := by
  obtain ⟨hused, hslots⟩ := usedSlots_of_prefix (h.slots_pre ino hlive)
  obtain ⟨hle, -⟩ := hout.overwritten h hlive
  have hn : n < fsMaxBlocks := hout.lt.trans_le hout.small
  have hprefix : usedSlots i' = n := usedSlots_eq hn.le fun k hk ↦ by
    by_cases hkn : k < n
    · exact iff_of_true (hout.wrote.used k hkn) hkn
    · rw [hout.wrote.same k (Or.inr (Or.inl (not_lt.mp hkn))), hslots k hk]
      omega
  have hcount := hout.wrote.count
  rw [hout.full, hnone, hprefix] at hcount
  refine eq_of_bitGet (by decide) hout.wrote.length fun c ↦ ?_
  rw [Bool.eq_iff_iff, hout.wrote.bits]
  refine or_iff_left ?_
  rintro ⟨k, hk, hz, -⟩
  exact (hslots k (by omega)).mpr (by omega) hz

/-- What the file reads as after such a write: as much as before, of the new bytes. -/
theorem OutOfClusters.fsReadFile_eq (hout : OutOfClusters data size s ino n t i')
    (h : FsInv s held) (h' : FsInv t held) (hlive : Live s ino) (hlive' : Live t ino)
    (hinode : readInode t ino = readInode s ino) (buf : ℕ → Byte) (max : ℕ) :
    fsReadFile t ino buf max = (min (readInode s ino).size max, fun k ↦
      if k < min (min (readInode s ino).size max) (usedSlots (readInode s ino) * fsBlockSize) then
        data k
      else buf k) := by
  obtain ⟨-, hblocks⟩ := hout.overwritten h hlive
  have hshort := hout.short
  have hbytes := fileBlocks_mul_le size
  rw [h'.fsReadFile_eq hlive', hinode]
  refine Prod.ext rfl (funext fun k ↦ ?_)
  dsimp only
  split_ifs with hk
  · have hlt : k < size := by
      have hmul : (usedSlots (readInode s ino) + 1) * fsBlockSize ≤
          fileBlocks size * fsBlockSize := Nat.mul_le_mul_right _ (by omega)
      unfold fsBlockSize at hk hmul hbytes
      omega
    rw [hblocks _ (div_fsBlockSize_lt (by omega)), get_fileBlock hlt]
  · rfl

/-- After such a write the file reads as before exactly if the bytes that were overwritten are those
it had. -/
theorem OutOfClusters.reads_alike_iff (hout : OutOfClusters data size s ino n t i')
    (h : FsInv s held) (h' : FsInv t held) (hlive : Live s ino) (hlive' : Live t ino)
    (hinode : readInode t ino = readInode s ino) :
    (∀ buf max, fsReadFile t ino buf max = fsReadFile s ino buf max) ↔
      ∀ max, (fsReadFile s ino data max).2 = data := by
  have hnew := hout.fsReadFile_eq h h' hlive hlive' hinode
  constructor
  · intro hsame max
    rw [← hsame, hnew]
    funext k
    exact ite_self _
  · intro hkept buf max
    have hold := hkept max
    rw [h.fsReadFile_eq hlive] at hold
    rw [hnew, h.fsReadFile_eq hlive]
    refine Prod.ext rfl (funext fun k ↦ ?_)
    have hbyte := congrFun hold k
    dsimp only at hbyte ⊢
    split_ifs at hbyte ⊢ with hk
    · exact hbyte.symm
    · rfl

theorem writeAtomic_iff (h : FsInv s held) (hfile : IsFile s ino) (data : ℕ → Byte)
    (size ticks : ℕ) :
    ((fsWriteFile s ino data size ticks).1 = false →
        FilesKept s (fsWriteFile s ino data size ticks).2 ino) ↔
      WriteAtomic s ino data size := by
  obtain ⟨hlive, hne⟩ := (isFile_iff h.dir).mp hfile
  have hspec := fsWriteFile_spec h hlive hne data size ticks
  revert hspec
  generalize (fsWriteFile s ino data size ticks).1 = ok,
    (fsWriteFile s ino data size ticks).2 = t
  intro hspec
  cases ok with
  | true =>
    have hcount := hspec.count rfl
    exact iff_of_true (fun hfail ↦ absurd hfail.symm Bool.false_ne_true)
      (Or.inr (Or.inl (by omega)))
  | false =>
    obtain ⟨hinode, ⟨hbig, rfl⟩ | ⟨n, i', hout⟩⟩ := hspec.failed rfl
    · exact iff_of_true (fun _ ↦ ⟨rfl, rfl, fun _ _ _ _ ↦ rfl⟩) (Or.inl hbig)
    · have hshort := hout.short
      have hlive' := (hspec.dir.live ino).mpr hlive
      constructor
      · intro hkept
        obtain ⟨hbitmap, -, hreads⟩ := hkept rfl
        have hnone : freeClusters s = 0 := by
          rw [← hout.full, freeClusters, freeClusters, hbitmap, FsState.blockCount,
            FsState.blockCount, hspec.sb]
        exact Or.inr (Or.inr ⟨hnone, (hout.reads_alike_iff h hspec.inv hlive hlive' hinode).mp
          (hreads ino hfile)⟩)
      · rintro (hbig | hroom | ⟨hnone, hsame⟩)
        · exact absurd hout.small (not_le.mpr hbig)
        · omega
        · refine fun _ ↦ ⟨hout.clusterBitmap_eq h hlive hnone, hinode, fun k hk buf max ↦ ?_⟩
          obtain ⟨hklive, -⟩ := (isFile_iff h.dir).mp hk
          by_cases hkino : k = ino
          · subst hkino
            exact (hout.reads_alike_iff h hspec.inv hlive hlive' hinode).mpr hsame buf max
          · exact hspec.fsReadFile_other h hlive hklive hkino buf max

end Write

section Failures

variable {kmalloc kmalloc' : ℕ → Bool} {d : Drive} {s₀ : FsState} {σ : Session}

/-- In every state of a mount session, these are the calls of `fs_create` and `fs_write_file` that
leave nothing behind when they fail. -/
theorem failures_atomic_iff (hcovers : BitmapCovers d)
    (hformat : (fsFormat kmalloc d s₀).1 = true)
    (hmount : (fsMount kmalloc' (fsFormat kmalloc d s₀).2).1 = true)
    (hrun : Run Session.step InSession (freshSession kmalloc kmalloc' d s₀) σ) :
    (∀ nm mode ticks, ((fsCreate σ.fs nm mode ticks).1 = -1 →
        BitmapsKept σ.fs (fsCreate σ.fs nm mode ticks).2) ↔ CreateAtomic σ.fs nm) ∧
      ∀ ino, IsFile σ.fs ino → ∀ data size ticks,
        ((fsWriteFile σ.fs ino data size ticks).1 = false →
          FilesKept σ.fs (fsWriteFile σ.fs ino data size ticks).2 ino) ↔
        WriteAtomic σ.fs ino data size := by
  have h := FsInv.run hcovers hformat hmount hrun
  refine ⟨fun nm mode ticks ↦ createAtomic_iff h nm mode ticks, fun ino hfile data size ticks ↦ ?_⟩
  exact writeAtomic_iff h hfile data size ticks

end Failures

theorem failures_atomic_iff_sessionWithFile :
    (∀ nm mode ticks, ((fsCreate sessionWithFile.fs nm mode ticks).1 = -1 →
        BitmapsKept sessionWithFile.fs (fsCreate sessionWithFile.fs nm mode ticks).2) ↔
          CreateAtomic sessionWithFile.fs nm) ∧
      ∀ ino, IsFile sessionWithFile.fs ino → ∀ data size ticks,
        ((fsWriteFile sessionWithFile.fs ino data size ticks).1 = false →
          FilesKept sessionWithFile.fs (fsWriteFile sessionWithFile.fs ino data size ticks).2 ino) ↔
        WriteAtomic sessionWithFile.fs ino data size := by
  have hrun : Run Session.step InSession smallSession sessionWithFile :=
    Run.refl.snoc _ ⟨trivial, fun _ ↦ nofun⟩
  exact failures_atomic_iff smallDrive_covers smallDrive_formats smallDrive_mounts hrun

/-- The small drive with a file of seven blocks, its last free clusters. -/
def noClusters : Session := sessionWithFile.step (.write 1 (fun _ ↦ 0x78) 3584 7)

/-- A name of 25 bytes costs an inode; a write of 5120 bytes to the file that has all clusters
overwrites its bytes and fails. -/
theorem failures_leave_traces :
    Run Session.step InSession smallSession noClusters ∧
      (fsCreate noClusters.fs (List.replicate 25 0x62) fsInodeReg 0).1 = -1 ∧
      ¬ BitmapsKept noClusters.fs
        (fsCreate noClusters.fs (List.replicate 25 0x62) fsInodeReg 0).2 ∧
      IsFile noClusters.fs 1 ∧
      (fsWriteFile noClusters.fs 1 (fun _ ↦ 0x79) 5120 8).1 = false ∧
      ¬ FilesKept noClusters.fs (fsWriteFile noClusters.fs 1 (fun _ ↦ 0x79) 5120 8).2 1 := by
  have hfile : IsFile sessionWithFile.fs 1 := isFile_sessionWithFile
  have hfile' : IsFile noClusters.fs 1 := ⟨0, 0, by decide +kernel, by decide +kernel⟩
  refine ⟨(Run.refl.snoc _ ⟨trivial, fun _ ↦ nofun⟩).snoc _ ⟨hfile, fun _ ↦ nofun⟩,
    by decide +kernel, ?_, hfile', by decide +kernel, ?_⟩
  · rintro ⟨hinodes, -⟩
    have hbit := congrArg (bitGet · 2) hinodes
    revert hbit
    decide +kernel
  · rintro ⟨-, -, hreads⟩
    have hbyte := congrFun (congrArg Prod.snd (hreads 1 hfile' (fun _ ↦ 0) 1)) 0
    revert hbyte
    decide +kernel

end NoOsKernel.Fs
