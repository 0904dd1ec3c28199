import NoOsKernel.Fs.Exits

/-!
# Creating, writing and removing a file

`fs_unlink` of a file that was just created and written gives back the inode and the clusters that
`fs_create` and `fs_write_file` took, and nothing else: both RAM bitmaps are what they were, and
the other files are never touched (`create_write_unlink_restores`).
-/

set_option autoImplicit false
set_option relaxedAutoImplicit false

namespace NoOsKernel.Fs

open Lib

variable {s s₁ s₂ s₃ : FsState} {held : Finset ℕ} {nm : CStr} {ino mode ticks n : ℕ}
  {data : ℕ → Byte}

theorem slotClusters_newInode (mode ticks : ℕ) (js : List ℕ) :
    slotClusters (newInode mode ticks) js = [] := by
  rw [slotClusters, List.filter_eq_nil_iff]
  intro c hc
  obtain ⟨j, -, rfl⟩ := List.mem_map.mp hc
  rw [block_newInode]
  simp

/-- The inode bitmap after a file was created, written and removed. -/
theorem inodeBitmap_restored (h : FsInv s held) (hc : Created s held nm mode ticks ino s₁)
    (hw : WriteSpec s₁ held ino data n true s₂) (hu : Unlinked s₂ held nm ino s₃) :
    s₃.inodeBitmap = s.inodeBitmap := by
  rw [hu.inodeBitmap, hw.inodeBitmap, hc.inodeBitmap]
  exact bitClr_bitSet (h.base.inode_lt_bitLen hc.lt) hc.clear

/-- The cluster bitmap after a file was created, written and removed. -/
theorem clusterBitmap_restored (h : FsInv s held) (hroot : (rootLoad s).block 0 ≠ 0)
    (hc : Created s held nm mode ticks ino s₁) (hlive : Live s₁ ino)
    (hw : WriteSpec s₁ held ino data n true s₂) (hu : Unlinked s₂ held nm ino s₃) :
    s₃.clusterBitmap = s.clusterBitmap := by
  have hlive₂ := (hw.dir.live ino).mpr hlive
  obtain ⟨-, hmarked⟩ := hw.inv.slotClusters_marked hlive₂ List.nodup_range fun j hj ↦
    List.mem_range.mp hj
  obtain ⟨-, hcleared⟩ := clear_bits s₂.clusterBitmap _ fun c hc ↦
    hw.inv.base.cluster_lt_bitLen (hmarked c hc).2.1
  have hnone : slotClusters (readInode s₁ ino) (List.range fsMaxBlocks) = [] := by
    rw [hc.inode, slotClusters_newInode]
  have hlen : s₃.clusterBitmap.length = s.clusterBitmap.length := by
    rw [hu.inv.base.clusterLen, h.base.clusterLen, FsState.bitmapBlocks, FsState.bitmapBlocks,
      hu.sb, hw.sb, hc.sb]
  refine eq_of_bitGet (by decide) hlen fun c ↦ ?_
  have hbits := hw.bits rfl c
  have hfresh := hw.fresh rfl c
  rw [hnone, hc.clusterBitmap hroot] at hbits hfresh
  rw [Bool.eq_iff_iff, hu.clusterBitmap, clearedClusters, hcleared, hbits]
  constructor
  · rintro ⟨⟨hold, -⟩ | hmem, hnot⟩
    · exact hold
    · exact absurd hmem hnot
  · intro hold
    refine ⟨Or.inl ⟨hold, List.not_mem_nil⟩, fun hmem ↦ ?_⟩
    rcases hfresh hmem with hnil | hclear
    · exact List.not_mem_nil hnil
    · rw [hold] at hclear
      exact Bool.false_ne_true hclear.symm

section Claim

variable {kmalloc kmalloc' : ℕ → Bool} {d : Drive} {s₀ : FsState} {σ : Session}

/-- In every state of a mount session whose directory has its block, a file that was created and
written can be removed; then both bitmaps are what they were before, and after each of the three
calls every other name stands for the file it stood for. -/
theorem create_write_unlink_restores (hcovers : BitmapCovers d)
    (hformat : (fsFormat kmalloc d s₀).1 = true)
    (hmount : (fsMount kmalloc' (fsFormat kmalloc d s₀).2).1 = true)
    (hrun : Run Session.step InSession (freshSession kmalloc kmalloc' d s₀) σ)
    (hroot : (rootLoad σ.fs).block 0 ≠ 0) {ticks' : ℕ}
    (hcreate : fsCreate σ.fs nm mode ticks = ((ino : ℤ), s₁))
    (hwrite : fsWriteFile s₁ ino data n ticks' = (true, s₂)) :
    (fsUnlink s₂ nm).1 = true ∧
      (fsUnlink s₂ nm).2.clusterBitmap = σ.fs.clusterBitmap ∧
      (fsUnlink s₂ nm).2.inodeBitmap = σ.fs.inodeBitmap ∧
      ∀ nm' ≠ nm, SameFile σ.fs s₁ nm' ∧ SameFile σ.fs s₂ nm' ∧
        SameFile σ.fs (fsUnlink s₂ nm).2 nm' := by
  have h := FsInv.run hcovers hformat hmount hrun
  have hok : 0 ≤ (fsCreate σ.fs nm mode ticks).1 := by
    rw [hcreate]
    exact Int.natCast_nonneg ino
  have hc := fsCreate_created h hok
  rw [hcreate, Int.toNat_natCast] at hc
  obtain ⟨hlive, hne⟩ := live_of_fsLookup_eq hc.inv hc.found
  have hw := fsWriteFile_spec hc.inv hlive hne data n ticks'
  rw [hwrite] at hw
  have hfound : fsLookup s₂ nm = ino :=
    (fsLookup_of_sameDir hc.inv hw.inv hw.dir nm).trans hc.found
  obtain ⟨hgone, hu⟩ := fsUnlink_unlinked hw.inv hfound
  refine ⟨hgone, clusterBitmap_restored h hroot hc hlive hw hu, inodeBitmap_restored h hc hw hu,
    fun nm' hnm' ↦ ?_⟩
  have hcreated := hc.others nm' hnm'
  have hwritten := hcreated.trans (hw.sameFile hc.inv hlive fun hsame ↦
    hnm' (fsLookup_inj hc.inv hsame hc.found))
  exact ⟨hcreated, hwritten, hwritten.trans (hu.others nm' hnm')⟩

end Claim

/-- A second file of two blocks on the small drive comes and goes. -/
theorem create_write_unlink_restores_two_blocks :
    (fsUnlink (fsWriteFile (fsCreate sessionWithFile.fs [0x62] fsInodeReg 1).2 2 (fun _ ↦ 0x79)
        600 2).2 [0x62]).1 = true ∧
      (fsUnlink (fsWriteFile (fsCreate sessionWithFile.fs [0x62] fsInodeReg 1).2 2 (fun _ ↦ 0x79)
        600 2).2 [0x62]).2.clusterBitmap = sessionWithFile.fs.clusterBitmap ∧
      (fsUnlink (fsWriteFile (fsCreate sessionWithFile.fs [0x62] fsInodeReg 1).2 2 (fun _ ↦ 0x79)
        600 2).2 [0x62]).2.inodeBitmap = sessionWithFile.fs.inodeBitmap ∧
      ∀ nm' ≠ [0x62],
        SameFile sessionWithFile.fs (fsCreate sessionWithFile.fs [0x62] fsInodeReg 1).2 nm' ∧
        SameFile sessionWithFile.fs (fsWriteFile (fsCreate sessionWithFile.fs [0x62]
          fsInodeReg 1).2 2 (fun _ ↦ 0x79) 600 2).2 nm' ∧
        SameFile sessionWithFile.fs (fsUnlink (fsWriteFile (fsCreate sessionWithFile.fs [0x62]
          fsInodeReg 1).2 2 (fun _ ↦ 0x79) 600 2).2 [0x62]).2 nm' := by
  have hrun : Run Session.step InSession smallSession sessionWithFile :=
    Run.refl.snoc _ ⟨trivial, fun _ ↦ nofun⟩
  have hcreate : (fsCreate sessionWithFile.fs [0x62] fsInodeReg 1).1 = (2 : ℕ) := by
    decide +kernel
  have hwrite : (fsWriteFile (fsCreate sessionWithFile.fs [0x62] fsInodeReg 1).2 2
      (fun _ ↦ 0x79) 600 2).1 = true := by
    decide +kernel
  exact create_write_unlink_restores smallDrive_covers smallDrive_formats smallDrive_mounts hrun
    (by decide +kernel) (Prod.ext hcreate rfl) (Prod.ext hwrite rfl)

end NoOsKernel.Fs
