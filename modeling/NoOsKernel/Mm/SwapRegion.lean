import NoOsKernel.Fs.Regions
import NoOsKernel.Lib.Layers
import NoOsKernel.Mm.Swap

/-!
# The disk that files and swap share

`swap_geometry` and `slot_lba` of `kernel/mm/swap.c`, and the system in which file calls and swapping
alternate on one disk. The superblock copies, the bitmap, the inode table, the clusters of the live
inodes and the swap slots are layers of the disk in this order (`disk_regions_disjoint`). The inode
table is one block longer than `fs_format` reserves: its last block is cluster 0, which no inode
owns.
-/

set_option autoImplicit false
set_option relaxedAutoImplicit false

namespace NoOsKernel.Mm

open Lib Fs

/-! ### Swap geometry -/

/-- `SWAP_PAGE_SECTORS`. -/
def swapPageSectors : ℕ := 8

/-- `struct swap_geom`. -/
structure SwapGeom where
  start : ℕ
  blocks : ℕ
  pages : ℕ

/-- `swap_geometry`. -/
def swapGeometry (diskBlocks : ℕ) : SwapGeom :=
  let blocks := if diskBlocks / 4 < swapPageSectors then swapPageSectors else diskBlocks / 4
  { start := (diskBlocks + 2 ^ 64 - blocks) % 2 ^ 64
    blocks := blocks
    pages := blocks / swapPageSectors }

/-- The geometry of a drive, with the probe default for an unknown capacity. -/
def swapGeomOf (d : Drive) : SwapGeom :=
  swapGeometry (if d.sectors = 0 then 32 * 1024 * 1024 / 512 else d.sectors)

/-- `slot_lba`. -/
def slotLba (g : SwapGeom) (slot : ℕ) : ℕ := (g.start + slot * swapPageSectors) % 2 ^ 64

/-- `swap_init`; the flag is `false` when it returns `-1`. -/
def swapInit (kmalloc : ℕ → Bool) (d : Drive) (s : Swap) : Bool × Swap :=
  let pages := (swapGeomOf d).pages
  if kmalloc ((pages + 7) / 8) then
    (true, { s with active := true, pages := pages, slots := List.replicate ((pages + 7) / 8) 0 })
  else (false, { s with pages := pages, slots := [] })

/-- Sector `b` of a page of memory. -/
def pageSector (p : Page) (b : ℕ) : Block := fun k ↦
  BitVec.ofNat 8 ((p ((512 * b + k) / 8)).toNat / 256 ^ ((512 * b + (k : ℕ)) % 8))

/-! ### The system -/

/-- A mounted filesystem and the kernel that swaps on the same disk. -/
structure DiskSystem where
  fs : Session
  kernel : Kernel

/-- What happens on the disk: file calls, and pages that leave and come back. -/
inductive DiskOp
  | file (op : FsOp)
  | swapOut (task va : ℕ)
  | swapIn (task va : ℕ)

/-- The disk after `swap_out` took a slot: the page the address is mapped to is in its sectors. -/
def swapWrite (d : Drive) (k : Kernel) (task va : ℕ) (disk : ℕ → Block) : ℕ → Block :=
  match slotAlloc k.swap with
  | none => disk
  | some (slot, _) =>
    diskWriteBlocks (slotLba (swapGeomOf d) slot)
      (pageSector (k.machine.mem (vmmTranslate k.machine.mem (k.tasks task).cr3 va / frameSize)))
      swapPageSectors disk

/-- One step. -/
def diskStep (d : Drive) (σ : DiskSystem) : DiskOp → DiskSystem
  | .file op => { σ with fs := σ.fs.step op }
  | .swapOut task va =>
    { fs :=
        if (swapOut σ.kernel task va).1 = 0 then
          { σ.fs with fs := { σ.fs.fs with disk := swapWrite d σ.kernel task va σ.fs.fs.disk } }
        else σ.fs
      kernel := (swapOut σ.kernel task va).2 }
  | .swapIn task va => { σ with kernel := (swapIn σ.kernel task va).2 }

/-- File calls go to files that exist. -/
def DiskCall (σ : DiskSystem) : DiskOp → Prop
  | .file op => FileCall σ.fs op
  | _ => True

/-! ### Regions -/

/-- The two superblock copies. -/
def superblocks : Set ℕ := {0, 1}

/-- The bitmap blocks. -/
def bitmapRegion (s : FsState) : Set ℕ :=
  {lba | s.bitmapStart ≤ lba ∧ lba < s.bitmapStart + s.bitmapBlocks}

/-- The blocks of the inodes. -/
def inodeRegion (s : FsState) : Set ℕ := {lba | ∃ i < s.inodeCount, lba = inodeLba s i}

/-- The clusters the live inodes own. -/
def clusterRegion (s : FsState) : Set ℕ :=
  {lba | ∃ i j, LiveInode s i ∧ j < fsMaxBlocks ∧ (readInode s i).block j ≠ 0 ∧
    lba = s.dataStart + (readInode s i).block j}

/-- The sectors of the swap slots. -/
def swapRegion (g : SwapGeom) : Set ℕ :=
  {lba | ∃ slot < g.pages, ∃ k < swapPageSectors, lba = slotLba g slot + k}

/-- The regions of the disk. -/
def diskRegions (d : Drive) (s : FsState) : List (Set ℕ) :=
  [superblocks, bitmapRegion s, inodeRegion s, clusterRegion s, swapRegion (swapGeomOf d)]

/-! ### Layers of the disk -/

/-- The swap slots fill the tail of the disk. -/
theorem swapGeomOf_bounds {d : Drive} (hd : 64 ≤ d.sectors) :
    (swapGeomOf d).start = fsUsableBlocks d ∧
      (swapGeomOf d).start + (swapGeomOf d).pages * swapPageSectors ≤ d.sectors := by
  have hstart : (swapGeomOf d).start = fsUsableBlocks d := rfl
  have hpages : (swapGeomOf d).pages = d.sectors / 4 / 8 := by
    rw [swapGeomOf, if_neg (by omega), swapGeometry, swapPageSectors, if_neg (by omega)]
  rw [hpages, hstart, fsUsableBlocks_eq hd, swapPageSectors]
  omega

theorem slotLba_eq {d : Drive} (hd : 64 ≤ d.sectors) {slot : ℕ}
    (hslot : slot < (swapGeomOf d).pages) :
    slotLba (swapGeomOf d) slot = fsUsableBlocks d + slot * swapPageSectors := by
  obtain ⟨hstart, hend⟩ := swapGeomOf_bounds hd
  have hle := d.sectors_le
  have hmul : (slot + 1) * swapPageSectors ≤ (swapGeomOf d).pages * swapPageSectors :=
    Nat.mul_le_mul_right _ hslot
  rw [Nat.add_mul, Nat.one_mul] at hmul
  rw [slotLba, Nat.mod_eq_of_lt (by omega), hstart]

theorem slotLba_bounds {d : Drive} (hd : 64 ≤ d.sectors) {slot : ℕ}
    (hslot : slot < (swapGeomOf d).pages) :
    fsUsableBlocks d ≤ slotLba (swapGeomOf d) slot ∧
      slotLba (swapGeomOf d) slot + swapPageSectors ≤ d.sectors := by
  obtain ⟨hstart, hend⟩ := swapGeomOf_bounds hd
  have hmul : (slot + 1) * swapPageSectors ≤ (swapGeomOf d).pages * swapPageSectors :=
    Nat.mul_le_mul_right _ hslot
  rw [Nat.add_mul, Nat.one_mul] at hmul
  rw [slotLba_eq hd hslot]
  omega

/-- The sectors of two slots are apart. -/
theorem slotLba_apart {d : Drive} (hd : 64 ≤ d.sectors) {slot slot' : ℕ}
    (hslot : slot < (swapGeomOf d).pages) (hslot' : slot' < (swapGeomOf d).pages)
    (hne : slot' ≠ slot) :
    slotLba (swapGeomOf d) slot + swapPageSectors ≤ slotLba (swapGeomOf d) slot' ∨
      slotLba (swapGeomOf d) slot' + swapPageSectors ≤ slotLba (swapGeomOf d) slot := by
  rw [slotLba_eq hd hslot, slotLba_eq hd hslot', swapPageSectors]
  omega

/-- The layers of a disk in the invariant of file calls. -/
theorem layered_regions {d : Drive} (hd : 64 ≤ d.sectors) {s : FsState} (h : FileInv d s) :
    Layered 0 (diskRegions d s) d.sectors := by
  have hok := h.1
  obtain ⟨hbitmap, hdata, hfits, -⟩ := formattedSb_fits hd
  obtain ⟨hstart, -, hinode⟩ := bitmap_formattedSb d
  have hbitmapStart : s.bitmapStart = 2 := by
    rw [FsState.bitmapStart, hok.sb_eq, hstart]
  have hinodeStart : s.inodeStart = 2 + s.bitmapBlocks := by
    rw [FsState.inodeStart, FsState.bitmapBlocks, hok.sb_eq, hinode]
  have hdataStart : s.dataStart = 38 + s.bitmapBlocks := by
    rw [FsState.dataStart, FsState.bitmapBlocks, hok.sb_eq, hdata]
  have hend : s.dataStart + s.blockCount = fsUsableBlocks d := by
    rw [FsState.dataStart, FsState.blockCount, hok.sb_eq, hfits]
  have hcount : s.inodeCount = 256 := by
    rw [FsState.inodeCount, hok.sb_eq, hok.geom.inodeCount]
  have husable := fsUsableBlocks_eq hd
  have htail := (formattedSb_fits hd).2.2.2
  have hdata' : FsSb.dataStart (formattedSb d) = s.dataStart := by
    rw [FsState.dataStart, hok.sb_eq]
  rw [hdata'] at htail
  have hsuper : superblocks ⊆ Set.Ico 0 2 := by
    rintro lba (rfl | rfl)
    · exact ⟨le_refl _, by omega⟩
    · exact ⟨by omega, by omega⟩
  have hmap : bitmapRegion s ⊆ Set.Ico 2 s.inodeStart := by
    rintro lba ⟨hlow, hhigh⟩
    exact ⟨by omega, by omega⟩
  have htable : inodeRegion s ⊆ Set.Ico s.inodeStart (s.dataStart + 1) := by
    rintro lba ⟨i, hi, rfl⟩
    rw [hcount] at hi
    obtain ⟨hlow, hhigh⟩ := hok.geom_state.inodeLba_bounds hi
    exact ⟨hlow, by omega⟩
  have hclusters : clusterRegion s ⊆ Set.Ico (s.dataStart + 1) (fsUsableBlocks d) := by
    rintro lba ⟨i, j, hlive, hj, hne, rfl⟩
    obtain ⟨hlow, hhigh⟩ := h.block_bounds hlive hj hne
    exact ⟨by omega, by omega⟩
  have hswap : swapRegion (swapGeomOf d) ⊆ Set.Ico (fsUsableBlocks d) d.sectors := by
    rintro lba ⟨slot, hslot, k, hk, rfl⟩
    obtain ⟨hlow, hhigh⟩ := slotLba_bounds hd hslot
    exact ⟨by omega, by omega⟩
  exact .cons hsuper (by omega) (.cons hmap (by omega) (.cons htable (by omega)
    (.cons hclusters (by omega) (.cons hswap (by omega) (.nil (le_refl _))))))

/-! ### Swapping leaves the files alone -/

/-- `swap_out` writes into its slot. -/
theorem diskRead_swapWrite {d : Drive} (hd : 64 ≤ d.sectors) {k : Kernel}
    (hpages : k.swap.pages = (swapGeomOf d).pages) (task va : ℕ) (disk : ℕ → Block) {lba : ℕ}
    (hlba : lba < fsUsableBlocks d) :
    diskReadBlock (swapWrite d k task va disk) lba = diskReadBlock disk lba := by
  have hle := d.sectors_le
  have husable := fsUsableBlocks_eq hd
  rw [swapWrite]
  rcases halloc : slotAlloc k.swap with - | ⟨slot, swap⟩
  · rfl
  · have hslot : slot < (swapGeomOf d).pages := by
      rw [slotAlloc] at halloc
      split_ifs at halloc
      obtain ⟨i, hfirst, heq⟩ := Option.map_eq_some_iff.mp halloc
      rw [← (Prod.mk.inj heq).1, ← hpages]
      exact (firstClear_eq_some hfirst).2.1
    obtain ⟨hlow, hhigh⟩ := slotLba_bounds hd hslot
    dsimp only
    rw [diskRead_writeBlocks _ _ _ (by omega) (by omega), if_neg (by omega)]

/-- The sectors of the marked slots hold the pages of the store. -/
def StoredOnDisk (d : Drive) (s : Swap) (disk : ℕ → Block) : Prop :=
  ∀ slot < s.pages, bitGet s.slots slot = true → ∀ b < swapPageSectors,
    diskReadBlock disk (slotLba (swapGeomOf d) slot + b) = pageSector (s.store slot) b

/-- `swap_out` writes the sectors of its slot and leaves those of the other slots, so that a slot is
the page last written to it. -/
theorem StoredOnDisk.swapOut {d : Drive} (hd : 64 ≤ d.sectors) {k : Kernel}
    (hpages : k.swap.pages = (swapGeomOf d).pages) (hcovers : k.swap.pages ≤ bitLen k.swap.slots)
    {disk : ℕ → Block} (h : StoredOnDisk d k.swap disk) {task va : ℕ}
    (hok : (Mm.swapOut k task va).1 = 0) :
    StoredOnDisk d (Mm.swapOut k task va).2.swap (swapWrite d k task va disk) := by
  have hle := d.sectors_le
  have hactive : ¬ SwapRefused k task va := by
    intro hrefused
    rw [swapOut_of_refused hrefused] at hok
    exact absurd hok (by decide : ¬ (-1 : ℤ) = 0)
  obtain ⟨slot, hslot, heq⟩ := swapOut_of_not_refused hactive
  have hlt := (firstClear_eq_some hslot).2.1
  obtain ⟨hlow, hhigh⟩ := slotLba_bounds hd (hpages ▸ hlt)
  have hwrite : ∀ lba < d.sectors, diskReadBlock (swapWrite d k task va disk) lba =
      if slotLba (swapGeomOf d) slot ≤ lba ∧ lba < slotLba (swapGeomOf d) slot + swapPageSectors then
        pageSector (k.machine.mem (vmmTranslate k.machine.mem (k.tasks task).cr3 va / frameSize))
          (lba - slotLba (swapGeomOf d) slot)
      else diskReadBlock disk lba := by
    intro lba hlba
    simp only [SwapRefused, not_or] at hactive
    rw [swapWrite, slotAlloc, if_neg hactive.1.1, hslot]
    exact diskRead_writeBlocks _ _ _ (by omega) (by omega)
  rw [heq]
  intro slot' hlt' hmarked b hb
  simp only at hlt' hmarked ⊢
  obtain ⟨hlow', hhigh'⟩ := slotLba_bounds hd (hpages ▸ hlt')
  rw [hwrite _ (by omega)]
  by_cases hsame : slot' = slot
  · rw [hsame, if_pos (by omega), Nat.add_sub_cancel_left, Function.update_self]
  · -- the sectors of two slots are apart
    rw [bitGet_bitSet (hlt.trans_le hcovers), decide_eq_false hsame, Bool.false_or] at hmarked
    have hapart := slotLba_apart hd (hpages ▸ hlt) (hpages ▸ hlt') hsame
    rw [if_neg (by omega), Function.update_of_ne hsame]
    exact h slot' hlt' hmarked b hb

theorem swapOut_pages (k : Kernel) (task va : ℕ) :
    (swapOut k task va).2.swap.pages = k.swap.pages := by
  by_cases hrefused : SwapRefused k task va
  · rw [swapOut_of_refused hrefused]
  · obtain ⟨slot, -, heq⟩ := swapOut_of_not_refused hrefused
    rw [heq]

theorem swapIn_pages (k : Kernel) (task va : ℕ) :
    (swapIn k task va).2.swap.pages = k.swap.pages := by
  rw [swapIn]
  dsimp only
  split_ifs
  · rfl
  · split
    · rfl
    · split <;> rfl

/-- The invariant of the system. -/
structure DiskInv (d : Drive) (σ : DiskSystem) : Prop where
  files : FileInv d σ.fs.fs
  pages : σ.kernel.swap.pages = (swapGeomOf d).pages

theorem DiskInv.step {d : Drive} (hd : 64 ≤ d.sectors) {σ : DiskSystem} (h : DiskInv d σ)
    {op : DiskOp} (hcall : DiskCall σ op) : DiskInv d (diskStep d σ op) := by
  cases op with
  | file op => exact ⟨h.files.step hcall, h.pages⟩
  | swapOut task va =>
    refine ⟨?_, (swapOut_pages _ _ _).trans h.pages⟩
    rw [diskStep]
    split_ifs
    · exact h.files.of_reads hd fun lba hlba ↦
        diskRead_swapWrite hd h.pages task va _ hlba
    · exact h.files
  | swapIn task va => exact ⟨h.files, (swapIn_pages _ _ _).trans h.pages⟩

/-- The system after `fs_format`, `fs_mount` and `swap_init`. -/
def freshSystem (kmalloc kmalloc' kswap : ℕ → Bool) (d : Drive) (s₀ : FsState) (k₀ : Kernel) :
    DiskSystem where
  fs := freshSession kmalloc kmalloc' d s₀
  kernel := { k₀ with swap := (swapInit kswap d k₀.swap).2 }

theorem swapInit_pages (kswap : ℕ → Bool) (d : Drive) (s : Swap) :
    (swapInit kswap d s).2.pages = (swapGeomOf d).pages := by
  rw [swapInit]
  split_ifs <;> rfl

/-- On every drive of 64 to `2 ^ 28` sectors, in every state that file calls and swapping reach, the
superblock copies, the bitmap blocks, the blocks of the 256 inodes, the clusters of the live inodes
and the sectors of the swap slots are pairwise disjoint and lie on the disk. Seven inodes of 72
bytes go into a block, and the table is sized to 36 blocks. -/
theorem disk_regions_disjoint {kmalloc kmalloc' : ℕ → Bool} (kswap : ℕ → Bool) {d : Drive}
    {s₀ : FsState} (k₀ : Kernel) (hd : 64 ≤ d.sectors)
    (hformat : (fsFormat kmalloc d s₀).1 = true)
    (hmount : (fsMount kmalloc' (fsFormat kmalloc d s₀).2).1 = true) {σ : DiskSystem}
    (hrun : Run (diskStep d) DiskCall (freshSystem kmalloc kmalloc' kswap d s₀ k₀) σ) :
    (diskRegions d σ.fs.fs).Pairwise Disjoint ∧
      (∀ r ∈ diskRegions d σ.fs.fs, ∀ lba ∈ r, lba < d.sectors) ∧ σ.fs.fs.inodeCount = 256 ∧
      inodesPerBlock = fsBlockSize / 72 ∧ (fsGeometry (fsUsableBlocks d)).inodeBlocks = 36 := by
  have hinv : DiskInv d σ := hrun.invariant (DiskInv d)
    ⟨FileInv.fresh hd hformat hmount, swapInit_pages kswap d k₀.swap⟩
    fun τ op h hcall ↦ h.step hd hcall
  have hlayers := layered_regions hd hinv.files
  refine ⟨hlayers.pairwise, fun r hr lba hlba ↦ (hlayers.bounds.2 r hr hlba).2, ?_, rfl, rfl⟩
  rw [FsState.inodeCount, hinv.files.1.sb_eq]
  exact hinv.files.1.geom.inodeCount

/-- The small drive with a file of two blocks and a page in swap. -/
theorem disk_regions_disjoint_one_file :
    ∃ σ, Run (diskStep smallDrive) DiskCall
        (freshSystem (fun _ ↦ true) (fun _ ↦ true) (fun _ ↦ true) smallDrive blankDisk
          identityKernel) σ ∧
      IsFile σ.fs.fs 1 ∧ (readInode σ.fs.fs 1).block 0 = 2 ∧
      (diskRegions smallDrive σ.fs.fs).Pairwise Disjoint := by
  set σ₀ := freshSystem (fun _ ↦ true) (fun _ ↦ true) (fun _ ↦ true) smallDrive blankDisk
    identityKernel with hσ₀
  set σ := diskStep smallDrive (diskStep smallDrive (diskStep smallDrive σ₀
    (.file (.create [0x61] fsInodeReg 0))) (.file (.write 1 (fun _ ↦ 0x78) 600 7)))
    (.swapOut 1 0x200000) with hσ
  have hrun : Run (diskStep smallDrive) DiskCall σ₀ σ := by
    refine ((Run.refl.snoc _ trivial).snoc _ ⟨0, 0, ?_, ?_⟩).snoc _ trivial
    · decide +kernel
    · decide +kernel
  exact ⟨σ, hrun, ⟨0, 0, by decide +kernel, by decide +kernel⟩, by decide +kernel,
    (disk_regions_disjoint (fun _ ↦ true) identityKernel (by decide) (by decide +kernel)
      (by decide +kernel) hrun).1⟩

end NoOsKernel.Mm
