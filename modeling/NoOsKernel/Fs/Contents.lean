import NoOsKernel.Fs.Shell
import Mathlib.Data.List.TakeWhile

/-!
# What a file reads as

`fs_read_file` depends on the inode and on the clusters of its block slots only
(`fsReadFile_of_same`), and a file whose slots hold the blocks of some bytes reads as these bytes
(`fsReadFile_of_blocks`). With the ownership invariant this gives the round trip of `fs_write_file`
and `fs_read_file`, and the frame around it, in every state of a mount session
(`write_then_read`).
-/

set_option autoImplicit false
set_option relaxedAutoImplicit false

namespace NoOsKernel.Fs

open Lib

variable {s t : FsState} {held held' : Finset ℕ} {ino : ℕ}

/-! ### Reading -/

theorem isSome_fsClusterRead (s : FsState) (c : ℕ) :
    (fsClusterRead s c).isSome = decide (c < s.blockCount) := by
  unfold fsClusterRead
  split_ifs with hlt
  · exact (decide_eq_false (not_lt.mpr hlt)).symm
  · exact (decide_eq_true (not_le.mp hlt)).symm

/-- The first elements of a range, up to the first one that fails a test. -/
theorem takeWhile_range {p : ℕ → Bool} {n m : ℕ} (hn : n ≤ m) (hp : ∀ k < n, p k = true)
    (hstop : n < m → p n = false) : (List.range m).takeWhile p = List.range n := by
  obtain ⟨r, rfl⟩ := Nat.exists_eq_add_of_le hn
  rw [List.range_add, List.takeWhile_append_of_pos fun k hk ↦ hp k (List.mem_range.mp hk)]
  have hrest : ((List.range r).map (n + ·)).takeWhile p = [] := by
    cases r with
    | zero => rfl
    | succ r =>
      rw [List.range_succ_eq_map, List.map_cons, List.takeWhile_cons_of_neg]
      rw [Nat.add_zero, hstop (by omega)]
      exact Bool.false_ne_true
  rw [hrest, List.append_nil]

/-- Reading a file uses its inode and the clusters in its block slots. -/
theorem fsReadFile_of_same (hsb : t.sb = s.sb) (hinode : readInode t ino = readInode s ino)
    (hclusters : ∀ j < fsMaxBlocks, (readInode s ino).block j ≠ 0 →
      t.cluster ((readInode s ino).block j) = s.cluster ((readInode s ino).block j))
    (buf : ℕ → Byte) (max : ℕ) : fsReadFile t ino buf max = fsReadFile s ino buf max := by
  have hcount : t.blockCount = s.blockCount := by rw [FsState.blockCount, hsb]
  unfold fsReadFile
  simp only [hinode, isSome_fsClusterRead, hcount]
  refine Prod.ext rfl (funext fun k ↦ ?_)
  dsimp only
  split_ifs with hk
  · -- byte `k` stands in a slot that is in use
    set present := (List.range fsMaxBlocks).takeWhile fun j ↦ (readInode s ino).block j ≠ 0
    set blocks := present.takeWhile fun j ↦ decide ((readInode s ino).block j < s.blockCount)
    have hinit : blocks <+: List.range fsMaxBlocks :=
      (List.takeWhile_prefix _).trans (List.takeWhile_prefix _)
    have hlt : k / fsBlockSize < blocks.length := by
      unfold fsBlockSize at hk ⊢
      omega
    have hslot : blocks[k / fsBlockSize] = k / fsBlockSize := by
      rw [hinit.getElem hlt, List.getElem_range]
    have hmem : k / fsBlockSize ∈ present := by
      have hin := (List.takeWhile_prefix _).subset (List.getElem_mem hlt)
      rwa [hslot] at hin
    have hmax := List.mem_range.mp ((List.takeWhile_prefix _).subset hmem)
    rw [hclusters _ hmax (by simpa using List.mem_takeWhile_imp hmem)]
  · rfl

/-- A file whose used slots are the first `n` reads as the bytes of their clusters. -/
theorem fsReadFile_of_slots {n : ℕ} (hn : n ≤ fsMaxBlocks)
    (hslots : ∀ j < fsMaxBlocks, (readInode s ino).block j ≠ 0 ↔ j < n)
    (hlt : ∀ j < n, (readInode s ino).block j < s.blockCount) (buf : ℕ → Byte) (max : ℕ) :
    fsReadFile s ino buf max = (min (readInode s ino).size max, fun k ↦
      if k < min (min (readInode s ino).size max) (n * fsBlockSize) then
        (s.cluster ((readInode s ino).block (k / fsBlockSize))).get (k % fsBlockSize)
      else buf k) := by
  have hpresent : (List.range fsMaxBlocks).takeWhile (fun j ↦ (readInode s ino).block j ≠ 0) =
      List.range n := by
    refine takeWhile_range hn (fun j hj ↦ ?_) fun hnm ↦ ?_
    · exact decide_eq_true ((hslots j (by omega)).mpr hj)
    · exact decide_eq_false fun hused ↦ absurd ((hslots n hnm).mp hused) (lt_irrefl n)
  have hread : (List.range n).takeWhile (fun j ↦ decide ((readInode s ino).block j < s.blockCount)) =
      List.range n :=
    takeWhile_range le_rfl (fun j hj ↦ decide_eq_true (hlt j hj)) fun hnn ↦ absurd hnn (lt_irrefl n)
  unfold fsReadFile
  simp only [isSome_fsClusterRead, hpresent, hread, if_true, List.length_range]

/-- Byte `k` of a file is byte `k % 512` of its block `k / 512`. -/
theorem get_fileBlock {data : ℕ → Byte} {size k : ℕ} (hk : k < size) :
    (fileBlock data size (k / fsBlockSize)).get (k % fsBlockSize) = data k := by
  have hdiv := Nat.div_add_mod k fsBlockSize
  have hmod : k % fsBlockSize < fsBlockSize := Nat.mod_lt k (by decide)
  rw [Nat.mul_comm] at hdiv
  rw [Buf.get_of_lt (fileBlock data size (k / fsBlockSize)) hmod]
  change (if k / fsBlockSize * fsBlockSize + k % fsBlockSize < size then
    data (k / fsBlockSize * fsBlockSize + k % fsBlockSize) else 0) = data k
  rw [hdiv, if_pos hk]

theorem div_fsBlockSize_lt {k n : ℕ} (hk : k < n * fsBlockSize) : k / fsBlockSize < n := by
  refine Nat.div_lt_of_lt_mul ?_
  rwa [Nat.mul_comm]

/-- A file whose first `n` slots hold the blocks of some bytes reads as these bytes. -/
theorem fsReadFile_of_blocks {data : ℕ → Byte} {size n : ℕ} (hn : n ≤ fsMaxBlocks)
    (hslots : ∀ j < fsMaxBlocks, (readInode s ino).block j ≠ 0 ↔ j < n)
    (hlt : ∀ j < n, (readInode s ino).block j < s.blockCount)
    (hsize : (readInode s ino).size = size) (hfits : size ≤ n * fsBlockSize)
    (hblocks : ∀ j < n, s.cluster ((readInode s ino).block j) = fileBlock data size j)
    (buf : ℕ → Byte) (max : ℕ) : fsReadFile s ino buf max =
      (min size max, fun k ↦ if k < min size max then data k else buf k) := by
  have hmin : min (min size max) (n * fsBlockSize) = min size max :=
    min_eq_left ((min_le_left _ _).trans hfits)
  rw [fsReadFile_of_slots hn hslots hlt, hsize, hmin]
  refine Prod.ext rfl (funext fun k ↦ ?_)
  dsimp only
  split_ifs with hk
  · rw [hblocks _ (div_fsBlockSize_lt (by omega)), get_fileBlock (by omega)]
  · rfl

/-- What a live inode reads as. -/
theorem FsInv.fsReadFile_eq (h : FsInv s held) (hlive : Live s ino) (buf : ℕ → Byte) (max : ℕ) :
    fsReadFile s ino buf max = (min (readInode s ino).size max, fun k ↦
      if k < min (min (readInode s ino).size max) (usedSlots (readInode s ino) * fsBlockSize) then
        (s.cluster ((readInode s ino).block (k / fsBlockSize))).get (k % fsBlockSize)
      else buf k) := by
  obtain ⟨hn, hslots⟩ := usedSlots_of_prefix (h.slots_pre ino hlive)
  refine fsReadFile_of_slots hn hslots (fun j hj ↦ ?_) buf max
  have hj' : j < fsMaxBlocks := by omega
  exact (FsInvOn.slot_marked h hlive hj' ((hslots j hj').mpr hj)).2.1

/-! ### The directory -/

/-- Entry `e` of the directory is live, with a name and an inode number. -/
def EntryIs (s : FsState) (e : ℕ) (nm : CStr) (ino : ℕ) : Prop :=
  ino ≠ 0 ∧ entryIno s e = ino ∧ entryName s e = nm

section Lookup

variable {nm : CStr}

theorem fsLookup_eq_iff (h : FsInv s held) :
    fsLookup s nm = ino ↔ ∃ e < direntPerBlock, EntryIs s e nm ino := by
  rcases fsLookup_spec h nm with ⟨hnone, hall⟩ | ⟨e, he, -, hne, hname, heq⟩
  · rw [hnone]
    constructor
    · intro hino
      exact absurd hino (by omega)
    · rintro ⟨e, he, hne, hino, hname⟩
      exact absurd hname (hall e he (hino ▸ hne))
  · rw [heq, Nat.cast_inj]
    constructor
    · rintro rfl
      exact ⟨e, he, hne, rfl, hname⟩
    · rintro ⟨e', he', hne', hino', hname'⟩
      rw [← hino', h.dir.entry_inj e he e' he' hne (hino' ▸ hne') (Or.inr (hname.trans hname'.symm))]

theorem fsLookup_eq_neg_one_iff (h : FsInv s held) :
    fsLookup s nm = -1 ↔ ∀ e < direntPerBlock, ∀ ino, ¬ EntryIs s e nm ino := by
  constructor
  · intro hnone e he ino hentry
    have hfound := (fsLookup_eq_iff h).mpr ⟨e, he, hentry⟩
    omega
  · intro hall
    rcases fsLookup_spec h nm with ⟨hnone, -⟩ | ⟨e, he, -, hne, hname, -⟩
    · exact hnone
    · exact absurd ⟨hne, rfl, hname⟩ (hall e he (entryIno s e))

/-- Different names stand for different inodes. -/
theorem fsLookup_inj (h : FsInv s held) {nm' : CStr} (hnm : fsLookup s nm = ino)
    (hnm' : fsLookup s nm' = ino) : nm = nm' := by
  obtain ⟨e, he, hne, hino, rfl⟩ := (fsLookup_eq_iff h).mp hnm
  obtain ⟨e', he', hne', hino', rfl⟩ := (fsLookup_eq_iff h).mp hnm'
  rw [h.dir.entry_inj e he e' he' (hino ▸ hne) (hino' ▸ hne') (Or.inl (hino.trans hino'.symm))]

/-- Two states find a name alike when the same entries carry it. -/
theorem fsLookup_of_sameEntries (h : FsInv s held) (h' : FsInv t held')
    (hentries : ∀ e < direntPerBlock, ∀ ino, EntryIs t e nm ino ↔ EntryIs s e nm ino) :
    fsLookup t nm = fsLookup s nm := by
  by_cases hnone : fsLookup s nm = -1
  · rw [hnone, fsLookup_eq_neg_one_iff h']
    intro e he ino hentry
    exact (fsLookup_eq_neg_one_iff h).mp hnone e he ino ((hentries e he ino).mp hentry)
  · obtain ⟨-, -, hfound⟩ := live_of_fsLookup h hnone
    obtain ⟨e, he, hentry⟩ := (fsLookup_eq_iff h).mp hfound
    rw [hfound, fsLookup_eq_iff h']
    exact ⟨e, he, (hentries e he _).mpr hentry⟩

theorem SameDir.entryIs (hdir : SameDir s t) (e : ℕ) (nm : CStr) (ino : ℕ) :
    EntryIs t e nm ino ↔ EntryIs s e nm ino := by
  unfold EntryIs
  rw [hdir.entryIno]
  refine and_congr_right fun hne ↦ and_congr_right fun hino ↦ ?_
  rw [hdir.entryName (hino ▸ hne)]

/-- Two states with the same directory find the same names. -/
theorem fsLookup_of_sameDir (h : FsInv s held) (h' : FsInv t held') (hdir : SameDir s t)
    (nm : CStr) : fsLookup t nm = fsLookup s nm :=
  fsLookup_of_sameEntries h h' fun e _ ino ↦ hdir.entryIs e nm ino

end Lookup

/-! ### Files -/

/-- A name stands for the same inode in both states, and the inode reads alike. -/
def SameFile (s t : FsState) (nm : CStr) : Prop :=
  fsLookup t nm = fsLookup s nm ∧ ∀ ino : ℕ, fsLookup s nm = ino → ∀ buf max,
    fsReadFile t ino buf max = fsReadFile s ino buf max

theorem SameFile.trans {u : FsState} {nm : CStr} (h : SameFile s t nm) (h' : SameFile t u nm) :
    SameFile s u nm := by
  refine ⟨h'.1.trans h.1, fun ino hino buf max ↦ ?_⟩
  rw [h'.2 ino (h.1.trans hino), h.2 ino hino]

/-! ### Writing -/

/-- The number of blocks of a file that `fs_write_file` accepts. -/
theorem fileBlocks_of_le {n : ℕ} (hn : n ≤ fsMaxBlocks * fsBlockSize) :
    fileBlocks n = (n + 511) / 512 ∧ n ≤ fileBlocks n * fsBlockSize ∧
      fileBlocks n ≤ fsMaxBlocks := by
  unfold fsMaxBlocks fsBlockSize at hn ⊢
  have hbounds : n ≤ (n + 511) / 512 * 512 ∧ (n + 511) / 512 ≤ 10 := by omega
  have hblocks : fileBlocks n = (n + 511) / 512 := by
    unfold fileBlocks fsBlockSize
    omega
  rw [hblocks]
  exact ⟨rfl, hbounds⟩

section Write

variable {data : ℕ → Byte} {size : ℕ} {ok : Bool}

/-- The cluster of a slot of another live inode is not one of the inode's own. -/
theorem FsInv.not_mem_slotClusters (h : FsInv s held) (hlive : Live s ino) {k j : ℕ}
    (hk : Live s k) (hne : k ≠ ino) (hj : j < fsMaxBlocks) (hz : (readInode s k).block j ≠ 0) :
    (readInode s k).block j ∉ slotClusters (readInode s ino) (List.range fsMaxBlocks) := by
  intro hmem
  obtain ⟨-, l, hl, heq⟩ := mem_slotClusters.mp hmem
  exact hne (FsInvOn.slot_inj h hk hlive hj (List.mem_range.mp hl) hz heq.symm).1

/-- A write leaves what every other live inode reads as. -/
theorem WriteSpec.fsReadFile_other (hspec : WriteSpec s held ino data size ok t)
    (h : FsInv s held) (hlive : Live s ino) {k : ℕ} (hk : Live s k) (hne : k ≠ ino)
    (buf : ℕ → Byte) (max : ℕ) : fsReadFile t k buf max = fsReadFile s k buf max :=
  fsReadFile_of_same hspec.sb (hspec.others k hk hne) (fun _ hj hz ↦
    hspec.kept _ (FsInvOn.slot_marked h hk hj hz) (h.not_mem_slotClusters hlive hk hne hj hz))
    buf max

/-- A write leaves the files of all names but those of its inode. -/
theorem WriteSpec.sameFile (hspec : WriteSpec s held ino data size ok t) (h : FsInv s held)
    (hlive : Live s ino) {nm : CStr} (hne : fsLookup s nm ≠ ino) : SameFile s t nm := by
  refine ⟨fsLookup_of_sameDir h hspec.inv hspec.dir nm, fun k hk buf max ↦ ?_⟩
  obtain ⟨hklive, -⟩ := live_of_fsLookup_eq h hk
  exact hspec.fsReadFile_other h hlive hklive (fun heq ↦ hne (hk.trans (by rw [heq]))) buf max

/-- What a write that succeeds stores reads back. -/
theorem WriteSpec.fsReadFile_self (hspec : WriteSpec s held ino data size true t)
    (hlive : Live s ino) (hsize : size ≤ fsMaxBlocks * fsBlockSize) (buf : ℕ → Byte) (max : ℕ) :
    fsReadFile t ino buf max =
      (min size max, fun k ↦ if k < min size max then data k else buf k) := by
  obtain ⟨hstored, hmax, hslots, hblocks⟩ := hspec.stored rfl
  obtain ⟨-, hfits, -⟩ := fileBlocks_of_le hsize
  refine fsReadFile_of_blocks hmax hslots (fun j hj ↦ ?_) ?_ hfits hblocks buf max
  · have hj' : j < fsMaxBlocks := by omega
    exact (FsInvOn.slot_marked hspec.inv ((hspec.dir.live ino).mpr hlive) hj'
      ((hslots j hj').mpr hj)).2.1
  · rw [hstored]
    refine Nat.mod_eq_of_lt ?_
    unfold fsMaxBlocks fsBlockSize at hsize
    omega

end Write

section Session

variable {kmalloc kmalloc' : ℕ → Bool} {d : Drive} {s₀ : FsState} {σ : Session}

/-- The invariant in every state that a mount session reaches. -/
theorem FsInv.run (hcovers : BitmapCovers d) (hformat : (fsFormat kmalloc d s₀).1 = true)
    (hmount : (fsMount kmalloc' (fsFormat kmalloc d s₀).2).1 = true)
    (hrun : Run Session.step InSession (freshSession kmalloc kmalloc' d s₀) σ) :
    FsInv σ.fs σ.held :=
  hrun.invariant (fun σ ↦ FsInv σ.fs σ.held) (FsInv.fresh hcovers hformat hmount)
    fun _ _ h hok ↦ h.step hok.1 hok.2

/-- In every state of a mount session, a write of at most ten blocks that succeeds reads back as the
bytes written, finds every name where it was, and leaves what the other live inodes read as. -/
theorem write_then_read (hcovers : BitmapCovers d) (hformat : (fsFormat kmalloc d s₀).1 = true)
    (hmount : (fsMount kmalloc' (fsFormat kmalloc d s₀).2).1 = true)
    (hrun : Run Session.step InSession (freshSession kmalloc kmalloc' d s₀) σ)
    (hfile : IsFile σ.fs ino) (data : ℕ → Byte) {n : ℕ} (hn : n ≤ 5120) (ticks : ℕ)
    (hok : (fsWriteFile σ.fs ino data n ticks).1 = true) :
    (∀ buf max, fsReadFile (fsWriteFile σ.fs ino data n ticks).2 ino buf max =
        (min n max, fun k ↦ if k < min n max then data k else buf k)) ∧
      (∀ nm, fsLookup (fsWriteFile σ.fs ino data n ticks).2 nm = fsLookup σ.fs nm) ∧
      ∀ k, LiveInode σ.fs k → k ≠ ino → ∀ buf max,
        fsReadFile (fsWriteFile σ.fs ino data n ticks).2 k buf max =
          fsReadFile σ.fs k buf max := by
  have h := FsInv.run hcovers hformat hmount hrun
  obtain ⟨hlive, hne⟩ := (isFile_iff h.dir).mp hfile
  have hspec := fsWriteFile_spec h hlive hne data n ticks
  rw [hok] at hspec
  refine ⟨fun buf max ↦ ?_, fun nm ↦ ?_, fun k hk hkne buf max ↦ ?_⟩
  · exact hspec.fsReadFile_self hlive hn buf max
  · exact fsLookup_of_sameDir h hspec.inv hspec.dir nm
  · exact hspec.fsReadFile_other h hlive ((liveInode_iff h).mp hk) hkne buf max

end Session

/-- Writing 600 bytes to a new file of the small drive. -/
theorem write_then_read_two_blocks :
    (∀ buf max, fsReadFile (fsWriteFile sessionWithFile.fs 1 (fun _ ↦ 0x78) 600 7).2 1 buf max =
        (min 600 max, fun k ↦ if k < min 600 max then 0x78 else buf k)) ∧
      (∀ nm, fsLookup (fsWriteFile sessionWithFile.fs 1 (fun _ ↦ 0x78) 600 7).2 nm =
        fsLookup sessionWithFile.fs nm) ∧
      ∀ k, LiveInode sessionWithFile.fs k → k ≠ 1 → ∀ buf max,
        fsReadFile (fsWriteFile sessionWithFile.fs 1 (fun _ ↦ 0x78) 600 7).2 k buf max =
          fsReadFile sessionWithFile.fs k buf max := by
  have hrun : Run Session.step InSession smallSession sessionWithFile :=
    Run.refl.snoc _ ⟨trivial, fun _ ↦ nofun⟩
  exact write_then_read smallDrive_covers smallDrive_formats smallDrive_mounts hrun
    isFile_sessionWithFile _ (by decide) 7 (by decide +kernel)

end NoOsKernel.Fs
