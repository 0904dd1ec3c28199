import NoOsKernel.Fs.Atomic

/-!
# Saving over a file

`SaveFile` removes the old file before it creates and writes the new one. The create cannot fail
then, since the inode and the entry of the old file are free, but the write can: the data may be
longer than ten blocks, or need more clusters than the old file had and the disk has left.
`saveFile_keeps_iff` says when neither the new nor the old contents are lost.
-/

set_option autoImplicit false
set_option relaxedAutoImplicit false

namespace NoOsKernel.Fs

open Lib

variable {s t : FsState} {held : Finset ℕ} {name : CStr} {ino : ℕ}

/-! ### Names -/

/-- A name that is found has at most 24 bytes. -/
theorem length_of_fsLookup (h : FsInv s held) (hfound : fsLookup s name = ino) :
    name.length ≤ fsNameMax := by
  obtain ⟨e, he, hne, hino, rfl⟩ := (fsLookup_eq_iff h).mp hfound
  have hlen : (entryName s e).length = entryLen s e := by
    unfold entryName entryLen FsDirent.name
    rw [List.length_map, List.length_range]
  rw [hlen]
  exact (h.dir.entry_ok e he (hino ▸ hne)).2.2

/-- No call of a session creates a file with an empty name. -/
theorem emptyName_step {σ : Session} (h : FsInv σ.fs σ.held) (hempty : fsLookup σ.fs [] = -1)
    {op : FsOp} (hok : InSession σ op) : fsLookup (σ.step op).fs [] = -1 := by
  have hinv := h.step hok.1 hok.2
  cases op with
  | create nm mode ticks =>
    by_cases hcreated : 0 ≤ (fsCreate σ.fs nm mode ticks).1
    · have hspec := fsCreate_created h hcreated
      refine (hspec.others [] fun heq ↦ hspec.name.1 ?_).1.trans hempty
      rw [← heq]
      rfl
    · have hexit := fsCreate_exit h nm mode ticks
      rw [Session.step] at hinv ⊢
      revert hinv hexit hcreated
      generalize (fsCreate σ.fs nm mode ticks).1 = r, (fsCreate σ.fs nm mode ticks).2 = t
      intro hinv hcreated hexit
      cases hexit with
      | known => exact hempty
      | noInode => exact hempty
      | noEntry _ hino hadd =>
        obtain ⟨-, hdir⟩ := h.takenInode hino mode ticks
        rw [hadd.eq_of_false] at hinv ⊢
        exact (fsLookup_of_sameDir h hinv hdir []).trans hempty
      | created => exact absurd (Int.natCast_nonneg _) hcreated
  | write ino data size ticks =>
    obtain ⟨hlive, hne⟩ := (isFile_iff h.dir).mp hok.1
    have hspec := fsWriteFile_spec h hlive hne data size ticks
    exact (fsLookup_of_sameDir h hspec.inv hspec.dir []).trans hempty
  | unlink nm =>
    by_cases hfound : fsLookup σ.fs nm = -1
    · have hexit := fsUnlink_exit h nm
      rw [Session.step]
      revert hexit
      generalize (fsUnlink σ.fs nm).1 = ok, (fsUnlink σ.fs nm).2 = t
      intro hexit
      cases hexit with
      | absent => exact hempty
      | removed _ _ _ heq => exact absurd (hfound.symm.trans heq) (by omega)
    · obtain ⟨-, -, hino⟩ := live_of_fsLookup h hfound
      obtain ⟨-, hspec⟩ := fsUnlink_unlinked h hino
      by_cases hnm : [] = nm
      · rw [← hnm] at hfound
        exact absurd hempty hfound
      · exact (hspec.others [] hnm).1.trans hempty
  | allocCluster =>
    rw [Session.step] at hinv ⊢
    rcases halloc : fsAllocCluster σ.fs with - | ⟨c, t⟩
    · exact hempty
    · rw [halloc] at hinv
      obtain ⟨-, rfl⟩ := fsAllocCluster_eq_some h.base.mounted halloc
      exact (fsLookup_of_sameDir h hinv (frame_withClusters _ _).dir []).trans hempty
  | freeCluster c =>
    refine (fsLookup_of_sameDir h hinv ?_ []).trans hempty
    rw [Session.step, fsFreeCluster]
    split_ifs
    · exact (frame_withClusters _ _).dir
    · exact ⟨rfl, fun _ ↦ rfl⟩
  | sync => exact (fsLookup_of_sameDir h hinv (sameDir_fsSyncBitmap h) []).trans hempty
  | mount kmalloc => exact absurd rfl (hok.2 kmalloc)

section Session

variable {kmalloc kmalloc' : ℕ → Bool} {d : Drive} {s₀ : FsState} {σ : Session}

theorem emptyName_run (hcovers : BitmapCovers d) (hformat : (fsFormat kmalloc d s₀).1 = true)
    (hmount : (fsMount kmalloc' (fsFormat kmalloc d s₀).2).1 = true)
    (hrun : Run Session.step InSession (freshSession kmalloc kmalloc' d s₀) σ) :
    FsInv σ.fs σ.held ∧ fsLookup σ.fs [] = -1 := by
  refine hrun.invariant (fun σ ↦ FsInv σ.fs σ.held ∧ fsLookup σ.fs [] = -1)
    ⟨FsInv.fresh hcovers hformat hmount, ?_⟩
    fun σ op ⟨h, hempty⟩ hok ↦ ⟨h.step hok.1 hok.2, emptyName_step h hempty hok⟩
  by_contra hfound
  obtain ⟨hlive, hne, -⟩ := live_of_fsLookup (FsInv.fresh hcovers hformat hmount) hfound
  exact hne ((FsInv.initial hcovers hformat hmount).2 _ hlive).1

end Session

/-! ### Flushing -/

/-- A flush of the bitmap leaves every file. -/
theorem sameFile_fsSyncBitmap (h : FsInv s held) (nm : CStr) : SameFile s (fsSyncBitmap s) nm := by
  refine ⟨fsLookup_of_sameDir h h.syncBitmap (sameDir_fsSyncBitmap h) nm, fun k hk buf max ↦ ?_⟩
  obtain ⟨hlive, -⟩ := live_of_fsLookup_eq h hk
  exact fsReadFile_of_same (sb_fsSyncBitmap s)
    (readInode_fsSyncBitmap h.base.sbOk (h.dir.live_lt hlive)) (fun j hj hz ↦
      cluster_fsSyncBitmap h.base.sbOk (FsInvOn.slot_marked h hlive hj hz).2.1) buf max

/-! ### `SaveFile` -/

/-- A name stands for a file that reads as given. -/
def ReadsAs (s : FsState) (name : CStr) (f : (ℕ → Byte) → ℕ → ℕ × (ℕ → Byte)) : Prop :=
  ∃ ino : ℕ, fsLookup s name = ino ∧ ∀ buf max, fsReadFile s ino buf max = f buf max

/-- What a file with the bytes of a string reads as. -/
def contentOf (data : CStr) (buf : ℕ → Byte) (max : ℕ) : ℕ × (ℕ → Byte) :=
  (min data.length max, fun k ↦ if k < min data.length max then data.getD k 0 else buf k)

/-- `SaveFile` told its caller that it failed. -/
def SaveFailed (r : Reply) : Prop := r.ret = -1 ∨ r.out = ascii "fs: unlink failed\n"

/-- After `SaveFile` the file has the new contents, or a failure was reported and it has the old
ones. -/
def SaveKeeps (ticks : ℕ → ℕ) (stale : BitVec 64) (s : FsState) (name data : CStr) : Prop :=
  ReadsAs (bSaveFile ticks stale s name data).2 name (contentOf data) ∨
    SaveFailed (bSaveFile ticks stale s name data).1 ∧
      ReadsAs (bSaveFile ticks stale s name data).2 name
        (fsReadFile s (fsLookup s name).toNat)

/-- The new data fits ten blocks, and the free clusters with those of the old file; or the old file
is empty. -/
def SaveFits (s : FsState) (ino size : ℕ) : Prop :=
  size ≤ 5120 ∧ fileBlocks size ≤ freeClusters s + usedSlots (readInode s ino) ∨
    (readInode s ino).size = 0 ∧ size + 511 < 2 ^ 64

/-- The state in which `SaveFile` has replaced the old file by an empty one. -/
structure Emptied (s : FsState) (held : Finset ℕ) (name : CStr) (ino : ℕ) (r : ℤ) (t : FsState) :
    Prop where
  inv : FsInv t held
  ok : 0 ≤ r
  found : fsLookup t name = r.toNat
  size : (readInode t r.toNat).size = 0
  slots : usedSlots (readInode t r.toNat) = 0
  count : freeClusters t = freeClusters s + usedSlots (readInode s ino)

theorem usedSlots_newInode (mode ticks : ℕ) : usedSlots (newInode mode ticks) = 0 :=
  usedSlots_eq (Nat.zero_le _) fun j _ ↦ by
    rw [block_newInode]
    exact iff_of_false (not_not.mpr rfl) (Nat.not_lt_zero j)

/-- After the old file is gone, `fs_create` succeeds: its inode and its entry are free. -/
theorem emptied (h : FsInv s held) (hempty : fsLookup s [] = -1) (hfound : fsLookup s name = ino)
    (mode ticks : ℕ) : (fsUnlink s name).1 = true ∧
      Emptied s held name ino (fsCreate (fsUnlink s name).2 name mode ticks).1
        (fsCreate (fsUnlink s name).2 name mode ticks).2 := by
  obtain ⟨hok, hgone⟩ := fsUnlink_unlinked h hfound
  obtain ⟨hlive, hne⟩ := live_of_fsLookup_eq h hfound
  have hlt := h.dir.live_lt hlive
  set s₁ := (fsUnlink s name).2 with hs₁
  have hblk : (rootLoad s₁).block 0 ≠ 0 := by
    obtain ⟨e, he, hne', hino, -⟩ := (fsLookup_eq_iff h).mp hfound
    rw [hgone.root]
    exact SameDir.block_ne_zero (hino ▸ hne' : entryIno s e ≠ 0)
  have hcreated : 0 ≤ (fsCreate s₁ name mode ticks).1 := by
    refine (fsCreate_ok_iff hgone.inv name mode ticks).mpr ⟨hgone.gone, fun hnone ↦ ?_,
      ⟨fun hzero ↦ ?_, length_of_fsLookup h hfound⟩, Or.inr ⟨hblk, hgone.room⟩⟩
    · have hset := bitGet_of_firstClear_eq_none hnone (Nat.pos_of_ne_zero hne) hlt
      rw [hgone.inodeBitmap, bitGet_bitClr (h.base.inode_lt_bitLen hlt), decide_eq_true rfl] at hset
      exact Bool.false_ne_true hset
    · rw [List.length_eq_zero_iff] at hzero
      rw [hzero] at hfound
      omega
  have hspec := fsCreate_created hgone.inv hcreated
  refine ⟨hok, hspec.inv, hcreated, hspec.found, ?_, ?_, ?_⟩
  · rw [hspec.inode, size_newInode]
  · rw [hspec.inode, usedSlots_newInode]
  · rw [← hgone.count h hlive, freeClusters, freeClusters, hspec.clusterBitmap hblk,
      FsState.blockCount, FsState.blockCount, hspec.sb]

theorem not_unlinkFailed (text : CStr) :
    sprintk 64 (ascii "fs: saved " ++ text) ≠ ascii "fs: unlink failed\n" := by
  intro heq
  have hchar := congrArg (fun out : CStr ↦ out[4]?) heq
  have hlen : 4 < (ascii "fs: saved ").length := by decide
  dsimp only [sprintk] at hchar
  rw [List.getElem?_take_of_lt (by decide), List.getElem?_append_left hlen] at hchar
  revert hchar
  decide

section Save

variable {data : CStr}

/-- A file that reads as an empty one is the old one only if that is empty. -/
theorem readsAs_old_iff (h : FsInv s held) (hfound : fsLookup s name = ino) (h' : FsInv t held)
    {k : ℕ} (hk : fsLookup t name = k) (hsize : (readInode t k).size = 0) :
    ReadsAs t name (fsReadFile s (fsLookup s name).toNat) ↔ (readInode s ino).size = 0 := by
  obtain ⟨hlive, -⟩ := live_of_fsLookup_eq h hfound
  obtain ⟨hlive', -⟩ := live_of_fsLookup_eq h' hk
  rw [hfound, Int.toNat_natCast]
  constructor
  · rintro ⟨k', hk', hreads⟩
    obtain rfl : k = k' := Nat.cast_injective (hk.symm.trans hk')
    have hcount := congrArg Prod.fst (hreads (fun _ ↦ 0) 1)
    rw [h.fsReadFile_eq hlive, h'.fsReadFile_eq hlive', hsize] at hcount
    dsimp only at hcount
    omega
  · intro hzero
    refine ⟨k, hk, fun buf max ↦ ?_⟩
    rw [h.fsReadFile_eq hlive, h'.fsReadFile_eq hlive', hsize, hzero]
    refine Prod.ext rfl (funext fun j ↦ ?_)
    dsimp only
    rw [if_neg (by omega), if_neg (by omega)]

/-- A file that reads as the new data has its length. -/
theorem length_of_readsAs (h : FsInv t held) {k : ℕ} (hk : fsLookup t name = k)
    (hreads : ReadsAs t name (contentOf data)) (max : ℕ) :
    min (readInode t k).size max = min data.length max := by
  obtain ⟨k', hk', hreads⟩ := hreads
  obtain rfl : k = k' := Nat.cast_injective (hk.symm.trans hk')
  obtain ⟨hlive, -⟩ := live_of_fsLookup_eq h hk
  have hcount := congrArg Prod.fst (hreads (fun _ ↦ 0) max)
  rwa [h.fsReadFile_eq hlive] at hcount

/-- The number of blocks wraps to zero for sizes next to `2 ^ 64`. -/
theorem fileBlocks_of_wrap {size : ℕ} (hlt : size < 2 ^ 64) (hwrap : 2 ^ 64 ≤ size + 511) :
    fileBlocks size = 0 := by
  have hmod : (size + 511) % 2 ^ 64 / 512 = 0 := by omega
  exact hmod

theorem fileBlocks_of_not_wrap {size : ℕ} (hwrap : size + 511 < 2 ^ 64) :
    fileBlocks size = (size + 511) / 512 := by
  have hmod : (size + 511) % 2 ^ 64 / 512 = (size + 511) / 512 := by omega
  exact hmod

/-- A write of the new data that succeeds: the file reads as the data unless its size wrapped. -/
theorem save_of_written (h : FsInv s held) {ino : ℕ} (hfound : fsLookup s name = ino)
    (hsize : data.length < 2 ^ 64)
    (hspec : WriteSpec s held ino (fun k ↦ data.getD k 0) data.length true t) :
    ReadsAs (fsSyncBitmap t) name (contentOf data) ↔ data.length ≤ 5120 := by
  obtain ⟨hlive, -⟩ := live_of_fsLookup_eq h hfound
  have hfound' : fsLookup t name = ino :=
    (fsLookup_of_sameDir h hspec.inv hspec.dir name).trans hfound
  have hsync := sameFile_fsSyncBitmap hspec.inv name
  have hlive' := (hspec.dir.live ino).mpr hlive
  constructor
  · rintro ⟨k, hk, hreads⟩
    obtain rfl : ino = k := Nat.cast_injective ((hsync.1.trans hfound').symm.trans hk)
    by_contra hbig
    -- the size wrapped, so that the file has no block
    obtain ⟨-, hmax, hslots, -⟩ := hspec.stored rfl
    have hwrap : 2 ^ 64 ≤ data.length + 511 := by
      by_contra hnot
      rw [fileBlocks_of_not_wrap (not_le.mp hnot)] at hmax
      unfold fsMaxBlocks at hmax
      omega
    rw [fileBlocks_of_wrap hsize hwrap] at hslots
    have hbyte := congrFun (congrArg Prod.snd (hreads (fun _ ↦ ~~~ data.getD 0 0) 1)) 0
    rw [hsync.2 ino hfound', hspec.inv.fsReadFile_eq hlive',
      usedSlots_eq (Nat.zero_le _) hslots] at hbyte
    have hmin : 0 < min data.length 1 := by omega
    simp only [contentOf, Nat.zero_mul, Nat.min_zero, Nat.lt_irrefl, if_false, hmin,
      if_true] at hbyte
    revert hbyte
    generalize data.getD 0 0 = b
    revert b
    decide
  · intro hsmall
    refine ⟨ino, hsync.1.trans hfound', fun buf max ↦ ?_⟩
    rw [hsync.2 ino hfound', hspec.fsReadFile_self hlive hsmall]
    rfl

/-- The reply of a `SaveFile` that went through. -/
def savedReply (name data : CStr) : Reply :=
  ⟨0, sprintk 64 (ascii "fs: saved " ++ name ++ ascii " (" ++ decimal (data.length % 2 ^ 32) ++
    ascii " bytes)\n")⟩

theorem not_saveFailed_savedReply (name data : CStr) : ¬ SaveFailed (savedReply name data) := by
  rintro (hret | hout)
  · change (0 : BitVec 64) = -1 at hret
    exact absurd hret (by decide)
  · rw [savedReply, List.append_assoc, List.append_assoc, List.append_assoc] at hout
    exact not_unlinkFailed _ hout

/-- Once the old file is gone and a new one is there, the write decides. -/
theorem bSaveFile_of_emptied {ticks : ℕ → ℕ} (hfound : fsLookup s name = ino)
    (hok : (fsUnlink s name).1 = true)
    (hpos : 0 ≤ (fsCreate (fsUnlink s name).2 name fsInodeReg (ticks 0)).1) (stale : BitVec 64) :
    bSaveFile ticks stale s name data =
      match fsWriteFile (fsCreate (fsUnlink s name).2 name fsInodeReg (ticks 0)).2
        (fsCreate (fsUnlink s name).2 name fsInodeReg (ticks 0)).1.toNat
        (fun k ↦ data.getD k 0) data.length (ticks 1) with
      | (false, s) => (⟨-1, ascii "fs: write failed\n"⟩, s)
      | (true, s) => (savedReply name data, fsSyncBitmap s) := by
  have hunlink : fsUnlink s name = (true, (fsUnlink s name).2) := Prod.ext hok rfl
  have hge : fsLookup s name ≥ 0 := by omega
  rw [bSaveFile, if_pos hge, hunlink]
  change saveNew ticks (fsUnlink s name).2 name data = _
  rw [saveNew]
  change (if (fsCreate (fsUnlink s name).2 name fsInodeReg (ticks 0)).1 < 0 then _ else _) = _
  rw [if_neg (not_lt.mpr hpos)]
  rfl

section Replaced

variable {r : ℤ} {s₂ : FsState}

/-- A write that fails leaves the empty file, which is what the old one was, or loses it. -/
theorem Emptied.keeps_of_failed (hnew : Emptied s held name ino r s₂) (h : FsInv s held)
    (hfound : fsLookup s name = ino) (hsize : data.length < 2 ^ 64)
    (hspec : WriteSpec s₂ held r.toNat (fun k ↦ data.getD k 0) data.length false t) :
    (ReadsAs t name (contentOf data) ∨ ReadsAs t name (fsReadFile s (fsLookup s name).toNat)) ↔
      SaveFits s ino data.length := by
  obtain ⟨hinode, hfail⟩ := hspec.failed rfl
  have hfound' : fsLookup t name = r.toNat :=
    (fsLookup_of_sameDir hnew.inv hspec.inv hspec.dir name).trans hnew.found
  have hzero : (readInode t r.toNat).size = 0 := by rw [hinode, hnew.size]
  have hblocks : 0 < fileBlocks data.length ∧
      ¬ (fileBlocks data.length ≤ fsMaxBlocks ∧
        fileBlocks data.length ≤ freeClusters s + usedSlots (readInode s ino)) := by
    have hcount := hnew.count
    have hslots := hnew.slots
    rcases hfail with ⟨hbig, -⟩ | ⟨n, i', hout⟩
    · exact ⟨by omega, fun hsmall ↦ absurd hsmall.1 (not_le.mpr hbig)⟩
    · have hshort := hout.short
      exact ⟨by omega, fun hsmall ↦ by omega⟩
  have hwrap : data.length + 511 < 2 ^ 64 := by
    by_contra hwrap
    rw [fileBlocks_of_wrap hsize (not_lt.mp hwrap)] at hblocks
    exact absurd hblocks.1 (lt_irrefl 0)
  have hdata : ¬ ReadsAs t name (contentOf data) := fun hreads ↦ by
    have hlen := length_of_readsAs hspec.inv hfound' hreads 1
    rw [hzero] at hlen
    have hpos := hblocks.1
    rw [fileBlocks_of_not_wrap hwrap] at hpos
    omega
  rw [or_iff_right hdata, readsAs_old_iff h hfound hspec.inv hfound' hzero, SaveFits,
    or_iff_right, and_iff_left hwrap]
  rintro ⟨hsmall, hroom⟩
  exact hblocks.2 ⟨(fileBlocks_of_le hsmall).2.2, hroom⟩

/-- A write that succeeds stores the data unless its size wrapped. -/
theorem Emptied.keeps_of_written (hnew : Emptied s held name ino r s₂)
    (hsize : data.length < 2 ^ 64)
    (hspec : WriteSpec s₂ held r.toNat (fun k ↦ data.getD k 0) data.length true t) :
    ReadsAs (fsSyncBitmap t) name (contentOf data) ↔ SaveFits s ino data.length := by
  have hcount := hspec.count rfl
  rw [hnew.slots, Nat.add_zero, hnew.count] at hcount
  rw [save_of_written hnew.inv hnew.found hsize hspec]
  constructor
  · intro hsmall
    exact Or.inl ⟨hsmall, by omega⟩
  · rintro (⟨hsmall, -⟩ | ⟨-, hwrap⟩)
    · exact hsmall
    · obtain ⟨-, hmax, -⟩ := hspec.stored rfl
      rw [fileBlocks_of_not_wrap hwrap] at hmax
      unfold fsMaxBlocks at hmax
      omega

end Replaced

/-- `SaveFile` over an existing file, in a state of the invariant without an empty name. -/
theorem saveKeeps_iff (h : FsInv s held) (hempty : fsLookup s [] = -1)
    (hfound : fsLookup s name = ino) (hsize : data.length < 2 ^ 64) (ticks : ℕ → ℕ)
    (stale : BitVec 64) :
    SaveKeeps ticks stale s name data ↔ SaveFits s ino data.length := by
  obtain ⟨hok, hnew⟩ := emptied h hempty hfound fsInodeReg (ticks 0)
  obtain ⟨hlive, hne⟩ := live_of_fsLookup_eq hnew.inv hnew.found
  have hspec := fsWriteFile_spec hnew.inv hlive hne (fun k ↦ data.getD k 0) data.length (ticks 1)
  unfold SaveKeeps
  rw [bSaveFile_of_emptied hfound hok hnew.ok]
  rcases hwrite : fsWriteFile (fsCreate (fsUnlink s name).2 name fsInodeReg (ticks 0)).2
    (fsCreate (fsUnlink s name).2 name fsInodeReg (ticks 0)).1.toNat (fun k ↦ data.getD k 0)
    data.length (ticks 1) with ⟨- | -, t⟩
  · rw [hwrite] at hspec
    have hreported : SaveFailed ⟨-1, ascii "fs: write failed\n"⟩ := Or.inl rfl
    dsimp only
    rw [and_iff_right hreported]
    exact hnew.keeps_of_failed h hfound hsize hspec
  · rw [hwrite] at hspec
    dsimp only
    rw [or_iff_left fun hkept ↦ not_saveFailed_savedReply name data hkept.1]
    exact hnew.keeps_of_written hsize hspec

end Save

section Claim

variable {kmalloc kmalloc' : ℕ → Bool} {d : Drive} {s₀ : FsState} {σ : Session}

/-- In every state of a mount session, saving over an existing file leaves it with the new contents,
or reports a failure and leaves it with the old ones, if and only if the new data fits. -/
theorem saveFile_keeps_iff (hcovers : BitmapCovers d) (hformat : (fsFormat kmalloc d s₀).1 = true)
    (hmount : (fsMount kmalloc' (fsFormat kmalloc d s₀).2).1 = true)
    (hrun : Run Session.step InSession (freshSession kmalloc kmalloc' d s₀) σ)
    (hfound : fsLookup σ.fs name = ino) {data : CStr} (hsize : data.length < 2 ^ 64)
    (ticks : ℕ → ℕ) (stale : BitVec 64) :
    SaveKeeps ticks stale σ.fs name data ↔ SaveFits σ.fs ino data.length := by
  obtain ⟨h, hempty⟩ := emptyName_run hcovers hformat hmount hrun
  exact saveKeeps_iff h hempty hfound hsize ticks stale

end Claim

/-- The small drive with a file `a` of one byte. -/
def oneByteFile : Session := sessionWithFile.step (.write 1 (fun _ ↦ 0x78) 1 7)

theorem run_oneByteFile : Run Session.step InSession smallSession oneByteFile :=
  (Run.refl.snoc _ ⟨trivial, fun _ ↦ nofun⟩).snoc _ ⟨isFile_sessionWithFile, fun _ ↦ nofun⟩

theorem saveFile_keeps_iff_two_bytes :
    SaveKeeps (fun k ↦ k) 0 oneByteFile.fs [0x61] [0x79, 0x7a] ↔ SaveFits oneByteFile.fs 1 2 :=
  @saveFile_keeps_iff [0x61] 1 (fun _ ↦ true) (fun _ ↦ true) smallDrive blankDisk oneByteFile
    smallDrive_covers smallDrive_formats smallDrive_mounts run_oneByteFile
    (by decide +kernel) [0x79, 0x7a] (by decide) (fun k ↦ k) 0

/-- Saving 5121 bytes over the file fails, and the byte it had is gone. -/
theorem saveFile_loses_old_file :
    Run Session.step InSession smallSession oneByteFile ∧ fsLookup oneByteFile.fs [0x61] = 1 ∧
      (fsReadFile oneByteFile.fs 1 (fun _ ↦ 0) 1).1 = 1 ∧
      ¬ SaveKeeps (fun k ↦ k) 0 oneByteFile.fs [0x61] (List.replicate 5121 0x79) := by
  have hfound : fsLookup oneByteFile.fs [0x61] = (1 : ℕ) := by decide +kernel
  obtain ⟨h, hempty⟩ := @emptyName_run (fun _ ↦ true) (fun _ ↦ true) smallDrive blankDisk
    oneByteFile smallDrive_covers smallDrive_formats smallDrive_mounts run_oneByteFile
  refine ⟨run_oneByteFile, hfound, by decide +kernel, ?_⟩
  rw [saveKeeps_iff h hempty hfound (by rw [List.length_replicate]; decide), List.length_replicate]
  rintro (⟨hsmall, -⟩ | ⟨hzero, -⟩)
  · omega
  · revert hzero
    decide +kernel

end NoOsKernel.Fs
