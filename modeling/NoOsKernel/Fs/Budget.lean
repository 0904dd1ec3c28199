import NoOsKernel.Fs.Durability
import NoOsKernel.Fs.SaveFile

/-!
# What creating and writing files takes

`Budget` counts what a filesystem has left, and `Budget.write` says what writing a file of some blocks
takes from it: an inode and an entry if the name is new, and the clusters that the file does not have
yet. On a filesystem that satisfies the invariant `corp_write` succeeds exactly if the budget allows
it, and leaves the budget that is left (`corpWrite_ok`, `corpWrite_failed`).
-/

set_option autoImplicit false
set_option relaxedAutoImplicit false

namespace NoOsKernel.Fs

open Lib

/-! ### Budgets -/

/-- What is left for files: clear inodes, free directory entries and free clusters, and whether the
directory has its block. -/
structure Budget where
  inodes : ℕ
  entries : ℕ
  clusters : ℕ
  rooted : Bool
  deriving DecidableEq

/-- A new file takes an inode and an entry, and a cluster if the directory has no block yet. -/
def Budget.create (b : Budget) : Option Budget :=
  if 0 < b.inodes ∧ 0 < b.entries ∧ (b.rooted = true ∨ 0 < b.clusters) then
    some ⟨b.inodes - 1, b.entries - 1, if b.rooted then b.clusters else b.clusters - 1, true⟩
  else none

/-- Storing `blocks` blocks in a file that has `used` of them. -/
def Budget.store (b : Budget) (used blocks : ℕ) : Option Budget :=
  if blocks ≤ b.clusters + used then some { b with clusters := b.clusters + used - blocks }
  else none

/-- Writing `blocks` blocks under a name, which has a file with some blocks or none. -/
def Budget.write (b : Budget) (blocks : ℕ) : Option ℕ → Option Budget
  | some used => b.store used blocks
  | none => b.create.bind fun b ↦ b.store 0 blocks

theorem Budget.create_eq {b : Budget} (h : b.create ≠ none) : b.create = some
    ⟨b.inodes - 1, b.entries - 1, if b.rooted then b.clusters else b.clusters - 1, true⟩ := by
  unfold Budget.create at h ⊢
  exact if_pos (by_contra fun hnot ↦ h (if_neg hnot))

/-- The entries of the directory that are free. -/
def freeEntries (s : FsState) : ℕ :=
  ((Finset.range direntPerBlock).filter fun e ↦ entryIno s e = 0).card

/-- What a filesystem has left. -/
def budget (s : FsState) : Budget :=
  ⟨clearCount s.inodeBitmap 1 256, freeEntries s, freeClusters s, (rootLoad s).block 0 ≠ 0⟩

/-- The number of blocks of the file of a name. -/
def usage (s : FsState) (nm : CStr) : Option ℕ :=
  if fsLookup s nm < 0 then none else some (usedSlots (readInode s (fsLookup s nm).toNat))

variable {s t u : FsState} {held : Finset ℕ} {nm : CStr} {ino : ℕ}

theorem usage_of_missing (h : fsLookup s nm = -1) : usage s nm = none := by
  rw [usage, if_pos (by omega)]

theorem usage_of_found (h : fsLookup s nm = ino) :
    usage s nm = some (usedSlots (readInode s ino)) := by
  rw [usage, if_neg (by omega), h, Int.toNat_natCast]

/-- A name that finds the same inode has the same blocks. -/
theorem usage_of_same (h : FsInv s held) (hfound : fsLookup t nm = fsLookup s nm)
    (hinode : ∀ k : ℕ, fsLookup s nm = k → readInode t k = readInode s k) :
    usage t nm = usage s nm := by
  by_cases hnone : fsLookup s nm = -1
  · rw [usage_of_missing hnone, usage_of_missing (hfound.trans hnone)]
  · obtain ⟨-, -, heq⟩ := live_of_fsLookup h hnone
    rw [usage_of_found heq, usage_of_found (hfound.trans heq), hinode _ heq]

theorem freeEntries_pos_iff : 0 < freeEntries s ↔ ∃ e < direntPerBlock, entryIno s e = 0 := by
  rw [freeEntries, Finset.card_pos, Finset.filter_nonempty_iff]
  simp only [Finset.mem_range]

/-! ### `fs_create` -/

theorem clearInodes_pos_iff (h : FsInv s held) :
    0 < clearCount s.inodeBitmap 1 256 ↔ firstClear s.inodeBitmap 1 256 ≠ none := by
  constructor
  · intro hpos hnone
    rw [firstClear_eq_none hnone] at hpos
    exact absurd hpos (lt_irrefl 0)
  · intro hsome
    obtain ⟨i, hi⟩ := Option.ne_none_iff_exists'.mp hsome
    obtain ⟨hlow, hlt, hclear⟩ := firstClear_eq_some hi
    have hcount := clearCount_bitSet hlow hlt (h.base.inode_lt_bitLen hlt) hclear
    omega

theorem dirRoom_iff : DirRoom s ↔
    0 < freeEntries s ∧ ((rootLoad s).block 0 ≠ 0 ∨ 0 < freeClusters s) := by
  rw [DirRoom, freeEntries_pos_iff]
  by_cases hblk : (rootLoad s).block 0 = 0
  · have hfree : ∃ e < direntPerBlock, entryIno s e = 0 := ⟨0, by decide, entryIno_of_eq hblk 0⟩
    simp only [hblk, hfree, ne_eq, not_true_eq_false, true_and, false_and, or_false, false_or]
  · simp only [hblk, ne_eq, not_false_eq_true, false_and, true_and, false_or, true_or, and_true]

/-- A file can be created if the budget says so. -/
theorem create_ne_none_iff (h : FsInv s held) : (budget s).create ≠ none ↔
    firstClear s.inodeBitmap 1 256 ≠ none ∧ DirRoom s := by
  rw [← clearInodes_pos_iff h, dirRoom_iff, Budget.create, budget]
  simp only [decide_eq_true_eq, ne_eq, ite_eq_right_iff, reduceCtorEq, imp_false, not_not]

/-- A new entry takes the place of a free one. -/
theorem freeEntries_withEntry (hbase : FsBase s) (hpos : 0 < (rootLoad s).block 0)
    (hlt : (rootLoad s).block 0 < s.blockCount) {e : ℕ} (he : e < direntPerBlock)
    (hfree : entryIno s e = 0) {d : Buf 32} (hused : entryIno (s.withEntry e d) e ≠ 0) :
    freeEntries (s.withEntry e d) = freeEntries s - 1 := by
  have herase : (Finset.range direntPerBlock).filter (fun e' ↦ entryIno (s.withEntry e d) e' = 0) =
      ((Finset.range direntPerBlock).filter fun e' ↦ entryIno s e' = 0).erase e := by
    ext e'
    rw [Finset.mem_erase, Finset.mem_filter, Finset.mem_filter]
    by_cases hee : e' = e
    · subst hee
      exact iff_of_false (fun hmem ↦ hused hmem.2) fun hmem ↦ hmem.1 rfl
    · rw [entryIno_withEntry_of_ne hbase hpos hlt d hee, and_iff_right hee]
  rw [freeEntries, herase, Finset.card_erase_of_mem, freeEntries]
  exact Finset.mem_filter.mpr ⟨Finset.mem_range.mpr he, hfree⟩

/-- What a new entry takes. -/
theorem AddExit.budget (h : FsInv s held) (hne : ino ≠ 0) (hino : ino < 256) {type : ℕ}
    (hexit : AddExit s nm ino type true t) : budget t =
      ⟨(budget s).inodes, (budget s).entries - 1,
        if (budget s).rooted then (budget s).clusters else (budget s).clusters - 1, true⟩ := by
  cases hexit with
  | entry hname hblk he hfree =>
    obtain ⟨hpos, hlt, -⟩ := FsInvOn.dir_marked h hblk
    obtain ⟨hself, -⟩ := entry_withEntry_make h.base hpos hlt he hino hname.2 type
    have hentries := freeEntries_withEntry h.base hpos hlt he hfree (by rwa [hself])
    simp only [Fs.budget, hentries, rootLoad_withEntry h.base hpos hlt, hblk, ne_eq,
      not_false_eq_true, decide_true, if_true]
    rfl
  | @first e c hname hblk hfirst he =>
    have hroot := newRootBlock h hblk hfirst
    obtain ⟨hpos, hlt, -⟩ := FsInvOn.dir_marked hroot.inv hroot.after
    obtain ⟨hself, -⟩ := entry_withEntry_make hroot.inv.base hpos hlt he hino hname.2 type
    have hentries := freeEntries_withEntry hroot.inv.base hpos hlt he (hroot.empty e)
      (by rwa [hself])
    have hall : freeEntries (s.withRootBlock c) = freeEntries s := by
      simp only [freeEntries, hroot.empty, entryIno_of_eq hblk]
    have hcount := hroot.count
    simp only [Fs.budget, hentries, hall, rootLoad_withEntry hroot.inv.base hpos hlt, hroot.after,
      hblk, ne_eq, not_true_eq_false, not_false_eq_true, decide_true, decide_false,
      Bool.false_eq_true, if_false]
    congr 1
    change freeClusters (s.withRootBlock c) = freeClusters s - 1
    omega

/-- What a new file takes. -/
theorem fsCreate_budget (h : FsInv s held) {mode ticks : ℕ}
    (hok : 0 ≤ (fsCreate s nm mode ticks).1) :
    (budget s).create = some (budget (fsCreate s nm mode ticks).2) := by
  obtain ⟨-, hinodes, -, hroom⟩ := (fsCreate_ok_iff h nm mode ticks).mp hok
  have hexit := fsCreate_exit h nm mode ticks
  revert hexit hok
  generalize (fsCreate s nm mode ticks).1 = r, (fsCreate s nm mode ticks).2 = t
  intro hok hexit
  cases hexit with
  | known => exact absurd hok (by decide)
  | noInode => exact absurd hok (by decide)
  | noEntry => exact absurd hok (by decide)
  | @created ino t hnew hino hadd =>
    obtain ⟨hinv, hdir⟩ := h.takenInode hino mode ticks
    obtain ⟨hne, hlt, -⟩ := readInode_takenInode h hino mode ticks
    obtain ⟨hlow, hhigh, hclear⟩ := firstClear_eq_some hino
    have hcount := clearCount_bitSet hlow hhigh (h.base.inode_lt_bitLen hhigh) hclear
    have htaken : budget (takenInode s ino mode ticks) =
        { budget s with inodes := (budget s).inodes - 1 } := by
      simp only [budget, freeEntries, hdir.entryIno, hdir.root]
      congr 1
      change clearCount (bitSet s.inodeBitmap ino) 1 256 = _
      omega
    have hne' := (create_ne_none_iff h).mpr ⟨hinodes, hroom⟩
    rw [hadd.budget hinv hne hlt, htaken]
    exact Budget.create_eq hne'

/-- A `fs_create` that fails leaves the files. -/
theorem sameFile_of_failed_create (h : FsInv s held) {mode ticks : ℕ}
    (hfail : (fsCreate s nm mode ticks).1 < 0) (nm' : CStr) :
    SameFile s (fsCreate s nm mode ticks).2 nm' := by
  have hexit := fsCreate_exit h nm mode ticks
  revert hexit hfail
  generalize (fsCreate s nm mode ticks).1 = r, (fsCreate s nm mode ticks).2 = t
  intro hfail hexit
  cases hexit with
  | known => exact ⟨rfl, fun _ _ _ _ ↦ rfl⟩
  | noInode => exact ⟨rfl, fun _ _ _ _ ↦ rfl⟩
  | @noEntry ino t hnew hino hadd =>
    obtain ⟨hinv, hdir⟩ := h.takenInode hino mode ticks
    have hsb : (takenInode s ino mode ticks).sb = s.sb := rfl
    obtain ⟨-, -, hnot, hreads⟩ := readInode_takenInode h hino mode ticks
    rw [hadd.eq_of_false]
    refine ⟨fsLookup_of_sameDir h hinv hdir nm', fun k hk buf max ↦ ?_⟩
    obtain ⟨hlive, -⟩ := live_of_fsLookup_eq h hk
    refine fsReadFile_of_same hsb ?_ (fun j hj hz ↦ ?_) buf max
    · rw [hreads k (h.dir.live_lt hlive), if_neg fun heq : k = ino ↦ hnot (heq ▸ hlive)]
    · obtain ⟨hpos, hlt, -⟩ := FsInvOn.slot_marked h hlive hj hz
      exact cluster_takenInode h hino mode ticks hpos hlt
  | created => exact absurd hfail (by omega)

/-! ### Opening a file -/

/-- What looking a file up, and creating it if it is missing, does when it finds an inode. -/
structure Opened (s : FsState) (held : Finset ℕ) (nm : CStr) (ino : ℕ) (t : FsState) : Prop where
  inv : FsInv t held
  found : fsLookup t nm = ino
  budget (blocks : ℕ) : (budget s).write blocks (usage s nm) =
    (budget t).store (usedSlots (readInode t ino)) blocks
  old : fsLookup s nm = ino ∧ t = s ∨ fsLookup s nm = -1 ∧ (Fs.budget s).create ≠ none
  others : ∀ nm' ≠ nm, SameFile s t nm' ∧ usage t nm' = usage s nm'

theorem opened_of_found (h : FsInv s held) (hfound : fsLookup s nm = ino) :
    Opened s held nm ino s where
  inv := h
  found := hfound
  budget blocks := by rw [usage_of_found hfound]; rfl
  old := Or.inl ⟨hfound, rfl⟩
  others _ _ := ⟨⟨rfl, fun _ _ _ _ ↦ rfl⟩, rfl⟩

theorem opened_of_created (h : FsInv s held) {mode ticks : ℕ}
    (hok : 0 ≤ (fsCreate s nm mode ticks).1) :
    Opened s held nm (fsCreate s nm mode ticks).1.toNat (fsCreate s nm mode ticks).2 := by
  have hnew := ((fsCreate_ok_iff h nm mode ticks).mp hok).1
  have hspec := fsCreate_created h hok
  have hcreate := fsCreate_budget h hok
  obtain ⟨-, -, -, -, -, hkept⟩ := (fsCreate_spec h nm mode ticks).created hok
  refine ⟨hspec.inv, hspec.found, fun blocks ↦ ?_, Or.inr ⟨hnew, by rw [hcreate]; nofun⟩,
    fun nm' hne ↦ ⟨hspec.others nm' hne, ?_⟩⟩
  · rw [usage_of_missing hnew, Budget.write, hcreate, hspec.inode, usedSlots_newInode]
    rfl
  · obtain ⟨hlookup, -⟩ := hspec.others nm' hne
    refine usage_of_same h hlookup fun k hk ↦ ?_
    have hk' := hlookup.trans hk
    obtain ⟨hlive, hkne⟩ := live_of_fsLookup_eq hspec.inv hk'
    refine (hkept k hlive hkne fun heq ↦ hne ?_).2
    exact fsLookup_inj hspec.inv hk' (heq ▸ hspec.found)

theorem openFile_opened (h : FsInv s held) (nm : CStr) (ticks : ℕ)
    (hok : ¬ (openFile s nm ticks).1 < 0) :
    Opened s held nm (openFile s nm ticks).1.toNat (openFile s nm ticks).2 := by
  rw [openFile] at hok ⊢
  split_ifs at hok ⊢ with hfound
  · exact opened_of_created h (not_lt.mp hok)
  · have hne : fsLookup s nm ≠ -1 := by omega
    exact opened_of_found h (live_of_fsLookup h hne).2.2

/-! ### Writing a file by name -/

/-- What is written under a name: one to 24 bytes of name, and at most ten blocks. -/
structure Writable (nm content : CStr) : Prop where
  name : nm.length ≠ 0 ∧ nm.length ≤ fsNameMax
  size : content.length ≤ fsMaxBlocks * fsBlockSize

/-- What a write under a name that succeeds does. -/
structure Stored (s : FsState) (held : Finset ℕ) (nm content : CStr) (t : FsState) : Prop where
  inv : FsInv t held
  budget : (budget s).write (fileBlocks content.length) (usage s nm) = some (Fs.budget t)
  reads : ReadsAs t nm (contentOf content)
  found : ∀ k : ℕ, fsLookup s nm = k → fsLookup t nm = k
  others : ∀ nm' ≠ nm, SameFile s t nm' ∧ usage t nm' = usage s nm'

/-- A write that fails does not show: no file could be created, or the bytes that were written are
those that the file has. -/
def Harmless (b : Budget) (s : FsState) (nm content : CStr) : Prop :=
  if fsLookup s nm < 0 then b.create = none
  else ∀ max, (fsReadFile s (fsLookup s nm).toNat (fun k ↦ content.getD k 0) max).2 =
    fun k ↦ content.getD k 0

/-- What a write under a name that fails does. -/
structure NotStored (s : FsState) (held : Finset ℕ) (nm content : CStr) (t : FsState) : Prop where
  inv : FsInv t held
  budget : (budget s).write (fileBlocks content.length) (usage s nm) = none
  stale : ∀ c, Writable nm c → fileBlocks content.length ≤ fileBlocks c.length →
    ¬ ReadsAs t nm (contentOf c)
  same : SameFile s t nm ↔ Harmless (Fs.budget s) s nm content
  others : ∀ nm' ≠ nm, SameFile s t nm'

section Write

variable {content : CStr} {ok : Bool}

theorem budget_of_sameDir (hdir : SameDir s t) (hinodes : t.inodeBitmap = s.inodeBitmap) :
    budget t = { budget s with clusters := freeClusters t } := by
  simp only [budget, freeEntries, hdir.entryIno, hdir.root, hinodes]

/-- The files of the other names, and their blocks. -/
theorem WriteSpec.others_same {data : ℕ → Byte} {size : ℕ}
    (hspec : WriteSpec s held ino data size ok t) (h : FsInv s held)
    (hfound : fsLookup s nm = ino) {nm' : CStr} (hne : nm' ≠ nm) :
    SameFile s t nm' ∧ usage t nm' = usage s nm' := by
  obtain ⟨hlive, -⟩ := live_of_fsLookup_eq h hfound
  have hother : fsLookup s nm' ≠ ino := fun heq ↦ hne (fsLookup_inj h heq hfound)
  have hsame := hspec.sameFile h hlive hother
  refine ⟨hsame, usage_of_same h hsame.1 fun k hk ↦ ?_⟩
  obtain ⟨hklive, -⟩ := live_of_fsLookup_eq h hk
  exact hspec.others k hklive fun heq : k = ino ↦ hother (heq ▸ hk)

theorem Opened.stored (hopen : Opened s held nm ino t) (hw : Writable nm content)
    (hspec : WriteSpec t held ino (fun k ↦ content.getD k 0) content.length true u) :
    Stored s held nm content u := by
  obtain ⟨hlive, -⟩ := live_of_fsLookup_eq hopen.inv hopen.found
  have hlookup := fsLookup_of_sameDir hopen.inv hspec.inv hspec.dir nm
  have hcount := hspec.count rfl
  refine ⟨hspec.inv, ?_, ⟨ino, hlookup.trans hopen.found, fun buf max ↦ ?_⟩, fun k hk ↦ ?_,
    fun nm' hne ↦ ?_⟩
  · rw [hopen.budget, budget_of_sameDir hspec.dir hspec.inodeBitmap, Budget.store, if_pos]
    · congr 2
      change freeClusters t + _ - _ = freeClusters u
      omega
    · change _ ≤ freeClusters t + _
      omega
  · rw [hspec.fsReadFile_self hlive hw.size]
    rfl
  · rcases hopen.old with ⟨hold, rfl⟩ | ⟨hnone, -⟩
    · exact hlookup.trans hk
    · omega
  · obtain ⟨hsame, husage⟩ := hopen.others nm' hne
    obtain ⟨hsame', husage'⟩ := hspec.others_same hopen.inv hopen.found hne
    exact ⟨hsame.trans hsame', husage'.trans husage⟩

/-- A file that has fewer blocks than the bytes need does not read as them. -/
theorem not_readsAs_of_short (h : FsInv t held) (hfound : fsLookup t nm = ino)
    (hw : Writable nm content)
    (hshort : usedSlots (readInode t ino) < fileBlocks content.length) :
    ¬ ReadsAs t nm (contentOf content) := by
  rintro ⟨k, hk, hreads⟩
  obtain rfl : ino = k := Nat.cast_injective (hfound.symm.trans hk)
  obtain ⟨hlive, -⟩ := live_of_fsLookup_eq h hfound
  have hin : usedSlots (readInode t ino) * fsBlockSize < content.length := by
    have hblocks := (fileBlocks_of_le hw.size).1
    unfold fsBlockSize
    omega
  set j := usedSlots (readInode t ino) * fsBlockSize with hj
  -- byte `j` of the file comes from no block, so that it is the one of the buffer
  have hbyte := congrFun (congrArg Prod.snd
    (hreads (fun _ ↦ ~~~ content.getD j 0) content.length)) j
  rw [h.fsReadFile_eq hlive] at hbyte
  have hnot : ¬ j < min (min (readInode t ino).size content.length)
      (usedSlots (readInode t ino) * fsBlockSize) := by omega
  have hmin : j < min content.length content.length := by omega
  simp only [contentOf, hnot, hmin, if_false, if_true] at hbyte
  revert hbyte
  generalize content.getD j 0 = b
  revert b
  decide

theorem Opened.notStored (hopen : Opened s held nm ino t) (hw : Writable nm content)
    (hspec : WriteSpec t held ino (fun k ↦ content.getD k 0) content.length false u) :
    NotStored s held nm content u := by
  obtain ⟨hlive, -⟩ := live_of_fsLookup_eq hopen.inv hopen.found
  obtain ⟨hinode, hfail⟩ := hspec.failed rfl
  have hfound := (fsLookup_of_sameDir hopen.inv hspec.inv hspec.dir nm).trans hopen.found
  obtain ⟨n, i', hout⟩ := hfail.resolve_left fun hbig ↦
    absurd (fileBlocks_of_le hw.size).2.2 (not_le.mpr hbig.1)
  have hshort := hout.short
  refine ⟨hspec.inv, ?_, ?_, ?_, fun nm' hne ↦ ?_⟩
  · rw [hopen.budget, Budget.store, if_neg]
    change ¬ _ ≤ freeClusters t + _
    omega
  · refine fun c hc hblocks ↦ not_readsAs_of_short hspec.inv hfound hc ?_
    rw [hinode]
    omega
  · rcases hopen.old with ⟨hold, rfl⟩ | ⟨hnone, hcreate⟩
    · have halike := hout.reads_alike_iff hopen.inv hspec.inv hlive
        ((hspec.dir.live ino).mpr hlive) hinode
      rw [Harmless, if_neg (by omega), hold, Int.toNat_natCast, ← halike]
      constructor
      · intro hsame
        exact hsame.2 ino hold
      · intro hreads
        refine ⟨hfound.trans hold.symm, fun k hk ↦ ?_⟩
        obtain rfl : ino = k := Nat.cast_injective (hold.symm.trans hk)
        exact hreads
    · rw [Harmless, if_pos (by omega)]
      refine iff_of_false (fun hsame ↦ ?_) hcreate
      have heq := hsame.1
      omega
  · exact (hopen.others nm' hne).1.trans (hspec.others_same hopen.inv hopen.found hne).1

/-- Where no file could be created, nothing is stored. -/
theorem openFile_notStored (h : FsInv s held) (hw : Writable nm content) {ticks : ℕ}
    (hfail : (openFile s nm ticks).1 < 0) :
    NotStored s held nm content (openFile s nm ticks).2 := by
  have hmissing : fsLookup s nm < 0 := by
    by_contra hfound
    rw [openFile, if_neg hfound] at hfail
    exact hfound hfail
  rw [openFile, if_pos hmissing] at hfail ⊢
  have hnone : fsLookup s nm = -1 := by
    by_contra hne
    have hfound := (live_of_fsLookup h hne).2.2
    omega
  have hsame := sameFile_of_failed_create h hfail
  have hcreate : (budget s).create = none := by
    by_contra hne
    obtain ⟨hinode, hroom⟩ := (create_ne_none_iff h).mp hne
    have hok := (fsCreate_ok_iff h nm fsInodeReg ticks).mpr ⟨hnone, hinode, hw.name, hroom⟩
    omega
  refine ⟨(fsCreate_spec h nm fsInodeReg ticks).inv, ?_, ?_, ?_, fun nm' _ ↦ hsame nm'⟩
  · rw [usage_of_missing hnone, Budget.write, hcreate]
    rfl
  · rintro c - - ⟨k, hk, -⟩
    have heq := (hsame nm).1
    omega
  · rw [Harmless, if_pos hmissing]
    exact iff_of_true (hsame nm) hcreate

/-! ### Flushing -/

theorem budget_fsSyncBitmap (h : FsInv s held) : budget (fsSyncBitmap s) = budget s := by
  rw [budget_of_sameDir (sameDir_fsSyncBitmap h) (inodeBitmap_fsSyncBitmap s), freeClusters,
    clusterBitmap_fsSyncBitmap, FsState.blockCount, sb_fsSyncBitmap]
  rfl

theorem usage_fsSyncBitmap (h : FsInv s held) (nm : CStr) :
    usage (fsSyncBitmap s) nm = usage s nm := by
  refine usage_of_same h (sameFile_fsSyncBitmap h nm).1 fun k hk ↦ ?_
  exact readInode_fsSyncBitmap h.base.sbOk (h.dir.live_lt (live_of_fsLookup_eq h hk).1)

/-- A file that reads alike in two states reads as the same bytes. -/
theorem ReadsAs.congr {f : (ℕ → Byte) → ℕ → ℕ × (ℕ → Byte)} (hreads : ReadsAs s nm f)
    (hsame : SameFile s t nm) : ReadsAs t nm f := by
  obtain ⟨k, hk, hreads⟩ := hreads
  exact ⟨k, hsame.1.trans hk, fun buf max ↦ (hsame.2 k hk buf max).trans (hreads buf max)⟩

theorem ReadsAs.of_same {f : (ℕ → Byte) → ℕ → ℕ × (ℕ → Byte)} (hreads : ReadsAs t nm f)
    (hsame : SameFile s t nm) : ReadsAs s nm f := by
  obtain ⟨k, hk, hreads⟩ := hreads
  have hk' := hsame.1.symm.trans hk
  exact ⟨k, hk', fun buf max ↦ (hsame.2 k hk' buf max).symm.trans (hreads buf max)⟩

/-- A file does not read as strings of different lengths. -/
theorem ReadsAs.length_eq {c c' : CStr} (h : ReadsAs s nm (contentOf c))
    (h' : ReadsAs s nm (contentOf c')) : c.length = c'.length := by
  obtain ⟨k, hk, hreads⟩ := h
  obtain ⟨k', hk', hreads'⟩ := h'
  obtain rfl : k = k' := Nat.cast_injective (hk.symm.trans hk')
  have hcount := congrArg Prod.fst
    ((hreads (fun _ ↦ 0) (c.length + c'.length)).symm.trans (hreads' _ _))
  dsimp only [contentOf] at hcount
  omega

theorem SameFile.symm (h : SameFile s t nm) : SameFile t s nm :=
  ⟨h.1.symm, fun k hk buf max ↦ (h.2 k (h.1.symm.trans hk) buf max).symm⟩

theorem Stored.sync (h : Stored s held nm content t) : Stored s held nm content (fsSyncBitmap t) where
  inv := h.inv.syncBitmap
  budget := by rw [h.budget, budget_fsSyncBitmap h.inv]
  reads := h.reads.congr (sameFile_fsSyncBitmap h.inv nm)
  found k hk := (sameFile_fsSyncBitmap h.inv nm).1.trans (h.found k hk)
  others nm' hne := ⟨(h.others nm' hne).1.trans (sameFile_fsSyncBitmap h.inv nm'),
    (usage_fsSyncBitmap h.inv nm').trans (h.others nm' hne).2⟩

theorem NotStored.sync (h : NotStored s held nm content t) :
    NotStored s held nm content (fsSyncBitmap t) where
  inv := h.inv.syncBitmap
  budget := h.budget
  stale c hc hblocks hreads :=
    h.stale c hc hblocks (hreads.of_same (sameFile_fsSyncBitmap h.inv nm))
  same := by
    rw [← h.same]
    have hsync := sameFile_fsSyncBitmap h.inv nm
    exact ⟨fun hsame ↦ hsame.trans hsync.symm, fun hsame ↦ hsame.trans hsync⟩
  others nm' hne := (h.others nm' hne).trans (sameFile_fsSyncBitmap h.inv nm')

/-! ### `corp_write` -/

/-- `corp_write` stores the bytes and reports it, or stores nothing and reports that. -/
theorem corpWrite_outcome (h : FsInv s held) (hw : Writable nm content) (ticks : ℕ → ℕ) :
    (corpWrite ticks s nm content).2.1 = true ∧
        Stored s held nm content (corpWrite ticks s nm content).2.2 ∨
      (corpWrite ticks s nm content).2.1 = false ∧
        NotStored s held nm content (corpWrite ticks s nm content).2.2 := by
  rw [corpWrite_eq]
  split_ifs with hfail
  · exact Or.inr ⟨rfl, openFile_notStored h hw hfail⟩
  · have hopen := openFile_opened h nm (ticks 0) hfail
    obtain ⟨hlive, hne⟩ := live_of_fsLookup_eq hopen.inv hopen.found
    have hspec := fsWriteFile_spec hopen.inv hlive hne (fun k ↦ content.getD k 0) content.length
      (ticks 1)
    rcases hwrite : fsWriteFile (openFile s nm (ticks 0)).2 (openFile s nm (ticks 0)).1.toNat
      (fun k ↦ content.getD k 0) content.length (ticks 1) with ⟨- | -, u⟩
    · rw [hwrite] at hspec
      exact Or.inr ⟨rfl, hopen.notStored hw hspec⟩
    · rw [hwrite] at hspec
      exact Or.inl ⟨rfl, (hopen.stored hw hspec).sync⟩

/-- `corp_write_seq` does the same with the digits of the number, and reports nothing. -/
theorem corpWriteSeq_outcome (h : FsInv s held) (ticks : ℕ → ℕ) {seq : ℕ}
    (hw : Writable (ascii "corpus.seq") (decimal seq)) :
    Stored s held (ascii "corpus.seq") (decimal seq) (corpWriteSeq ticks s seq) ∨
      NotStored s held (ascii "corpus.seq") (decimal seq) (corpWriteSeq ticks s seq) := by
  rw [corpWriteSeq_eq]
  split_ifs with hfail
  · exact Or.inr (openFile_notStored h hw hfail)
  · have hopen := openFile_opened h (ascii "corpus.seq") (ticks 0) hfail
    obtain ⟨hlive, hne⟩ := live_of_fsLookup_eq hopen.inv hopen.found
    have hspec := fsWriteFile_spec hopen.inv hlive hne (fun k ↦ (decimal seq).getD k 0)
      (decimal seq).length (ticks 1)
    revert hspec
    generalize fsWriteFile (openFile s (ascii "corpus.seq") (ticks 0)).2
      (openFile s (ascii "corpus.seq") (ticks 0)).1.toNat (fun k ↦ (decimal seq).getD k 0)
      (decimal seq).length (ticks 1) = r
    intro hspec
    obtain ⟨- | -, u⟩ := r
    · exact Or.inr (hopen.notStored hw hspec).sync
    · exact Or.inl (hopen.stored hw hspec).sync

end Write

end NoOsKernel.Fs
