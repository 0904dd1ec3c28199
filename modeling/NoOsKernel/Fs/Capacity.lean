import NoOsKernel.Fs.Regions

/-!
# The size of the bitmap

`fs_format` sizes the bitmap for the clusters that would be left if the bitmap had a bit for every
block, and then gives the clusters all blocks it has saved. On most drives the bits that round up the
last bitmap block cover the difference. They do not where the clusters of the second pass just begin
to need another bitmap block: `CapacityOk` tells these drives by a remainder modulo 4097, the blocks
that one bitmap block describes and itself.
-/

set_option autoImplicit false
set_option relaxedAutoImplicit false

namespace NoOsKernel.Fs

open Lib

/-- The drives on which the bitmap is large enough, by the blocks below the swap tail. -/
def CapacityOk (d : Drive) : Prop :=
  (fsUsableBlocks d + 4095) / 4096 ≤ (fsUsableBlocks d - 39) / 4097 + (fsUsableBlocks d - 39) % 4097

instance (d : Drive) : Decidable (CapacityOk d) := by
  unfold CapacityOk
  infer_instance

/-- The second pass of the size computation covers its clusters. -/
theorem two_passes_cover_iff {total b₀ b : ℕ} (htotal : 48 ≤ total)
    (hb₀ : b₀ = (total + 8 * 512 - 1) / (8 * 512))
    (hb : b = (total - (2 + b₀ + 36) + 8 * 512 - 1) / (8 * 512)) :
    total - (38 + b) ≤ 8 * 512 * b ↔
      (total + 4095) / 4096 ≤ (total - 39) / 4097 + (total - 39) % 4097 := by
  obtain ⟨-, -, hroom⟩ := two_passes htotal hb₀ hb
  set q := (total - 39) / 4097 with hq
  set r := (total - 39) % 4097 with hr
  have hdiv : total = 39 + 4097 * q + r := by omega
  have hrem : r < 4097 := Nat.mod_lt _ (by omega)
  have hfirst : (total + 4095) / 4096 = b₀ := by omega
  have hneed : total - (38 + b) ≤ 8 * 512 * b ↔ q < b := by omega
  have hgot : q < b ↔ 4096 * q < total - (2 + b₀ + 36) := by omega
  rw [hfirst, hneed, hgot]
  omega

variable {kmalloc kmalloc' : ℕ → Bool} {d : Drive} {s₀ : FsState}

theorem formattedSb_covers_iff (hd : 64 ≤ d.sectors) :
    FsSb.blockCount (formattedSb d) ≤ 8 * 512 * FsSb.bitmapBlocks (formattedSb d) ↔
      CapacityOk d := by
  have hle := d.sectors_le
  have husable := fsUsableBlocks_eq hd
  have hsmall := fsGeometry_bitmapBlocks_le d
  obtain ⟨-, hdata, hfits, -⟩ := formattedSb_fits hd
  obtain ⟨-, hbitmap, -⟩ := bitmap_formattedSb d
  obtain ⟨b₀, b, hb₀, hb, hblocks, -⟩ := fsGeometry_eq (fsUsableBlocks d)
  rw [hblocks] at hbitmap hsmall
  rw [CapacityOk]
  have hcount : FsSb.blockCount (formattedSb d) = fsUsableBlocks d - (38 + b) := by omega
  rw [hcount, hbitmap]
  have hlow : 48 ≤ fsUsableBlocks d := by omega
  have hhigh : fsUsableBlocks d < 2 ^ 28 := by omega
  rw [Nat.mod_eq_of_lt (by omega)] at hb₀
  rw [wrapSub_of_le (by omega) (by omega), Nat.mod_eq_of_lt (by omega)] at hb
  exact two_passes_cover_iff hlow hb₀ hb

/-- The bitmap that `fs_mount` loads has a byte for every eight bits of the superblock. -/
theorem mounted_bitmap (hformat : (fsFormat kmalloc d s₀).1 = true)
    (hmount : (fsMount kmalloc' (fsFormat kmalloc d s₀).2).1 = true) :
    (fsMount kmalloc' (fsFormat kmalloc d s₀).2).2.sb = formattedSb d ∧
      (fsMount kmalloc' (fsFormat kmalloc d s₀).2).2.clusterBitmap.length =
        512 * FsSb.bitmapBlocks (formattedSb d) := by
  obtain ⟨-, hcopies, -, -⟩ := fsFormat_any hformat
  rw [fsMount_of_readAnySb (readAnySb_of_copies hcopies (valid_formattedSb d)) hmount]
  refine ⟨rfl, ?_⟩
  rw [clusterBitmap_mountedState]
  exact length_loadBitmap _ _ _

/-- The superblock that `fs_format` writes has a bit for each cluster, and `fs_mount` allocates a
buffer that holds the bits of all of them, if and only if the drive is one of these. -/
theorem bitmap_sized_iff (hd : 64 ≤ d.sectors) (hformat : (fsFormat kmalloc d s₀).1 = true)
    (hmount : (fsMount kmalloc' (fsFormat kmalloc d s₀).2).1 = true) :
    (FsSb.blockCount (diskReadBlock (fsFormat kmalloc d s₀).2.disk 0) ≤
        8 * 512 * FsSb.bitmapBlocks (diskReadBlock (fsFormat kmalloc d s₀).2.disk 0) ∧
      ∀ c < (fsMount kmalloc' (fsFormat kmalloc d s₀).2).2.blockCount,
        c / 8 < (fsMount kmalloc' (fsFormat kmalloc d s₀).2).2.clusterBitmap.length) ↔
      CapacityOk d := by
  obtain ⟨-, hcopies, -, -⟩ := fsFormat_any hformat
  obtain ⟨hsb, hlen⟩ := mounted_bitmap hformat hmount
  rw [hcopies 0 (by omega), hlen, FsState.blockCount, hsb, ← formattedSb_covers_iff hd]
  refine ⟨fun h ↦ h.1, fun h ↦ ⟨h, fun c hc ↦ ?_⟩⟩
  omega

/-- A drive of 32 MiB, the size the kernel assumes when a drive reports none. -/
def drive32 : Drive := ⟨65536, by decide⟩

/-- A drive with 4136 blocks below the swap tail: one bitmap block for 4097 clusters. -/
def tightDrive : Drive := ⟨5514, by decide⟩

/-- Both drives can be formatted and mounted. -/
theorem drives_mount : ((fsFormat (fun _ ↦ true) drive32 blankDisk).1 = true ∧
      (fsMount (fun _ ↦ true) (fsFormat (fun _ ↦ true) drive32 blankDisk).2).1 = true) ∧
    (fsFormat (fun _ ↦ true) tightDrive blankDisk).1 = true ∧
      (fsMount (fun _ ↦ true) (fsFormat (fun _ ↦ true) tightDrive blankDisk).2).1 = true := by
  decide +kernel

theorem bitmap_sized_iff_drive32 :
    (FsSb.blockCount (diskReadBlock (fsFormat (fun _ ↦ true) drive32 blankDisk).2.disk 0) ≤
        8 * 512 * FsSb.bitmapBlocks
          (diskReadBlock (fsFormat (fun _ ↦ true) drive32 blankDisk).2.disk 0) ∧
      ∀ c < (fsMount (fun _ ↦ true) (fsFormat (fun _ ↦ true) drive32 blankDisk).2).2.blockCount,
        c / 8 < (fsMount (fun _ ↦ true)
          (fsFormat (fun _ ↦ true) drive32 blankDisk).2).2.clusterBitmap.length) ↔
      CapacityOk drive32 :=
  bitmap_sized_iff (by decide) drives_mount.1.1 drives_mount.1.2

/-- On that drive the last cluster has no bit in the buffer that `fs_mount` allocates. -/
theorem bitmap_too_small_on_tightDrive :
    (fsFormat (fun _ ↦ true) tightDrive blankDisk).1 = true ∧
      ¬ FsSb.blockCount (diskReadBlock (fsFormat (fun _ ↦ true) tightDrive blankDisk).2.disk 0) ≤
        8 * 512 * FsSb.bitmapBlocks
          (diskReadBlock (fsFormat (fun _ ↦ true) tightDrive blankDisk).2.disk 0) ∧
      ∃ c < (fsMount (fun _ ↦ true) (fsFormat (fun _ ↦ true) tightDrive blankDisk).2).2.blockCount,
        (fsMount (fun _ ↦ true)
          (fsFormat (fun _ ↦ true) tightDrive blankDisk).2).2.clusterBitmap.length ≤ c / 8 := by
  obtain ⟨hformat, hmount⟩ := drives_mount.2
  have hcovers := (formattedSb_covers_iff (d := tightDrive) (by decide)).not.mpr (by decide)
  obtain ⟨-, hcopies, -, -⟩ := fsFormat_any hformat
  obtain ⟨hsb, hlen⟩ := mounted_bitmap hformat hmount
  refine ⟨hformat, by rwa [hcopies 0 (by omega)], ?_⟩
  refine ⟨FsSb.blockCount (formattedSb tightDrive) - 1, ?_, ?_⟩
  · rw [FsState.blockCount, hsb]
    omega
  · rw [hlen]
    omega

end NoOsKernel.Fs
