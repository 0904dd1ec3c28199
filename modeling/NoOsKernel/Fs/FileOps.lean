import NoOsKernel.Fs.Operations

/-!
# Writing and freeing the blocks of a file

The two loops of `fs_write_file` and the loop of `fs_unlink` that frees the blocks of an inode.
`writeBlocks_spec` is the induction over the block slots: after each round the inode in RAM owns its
clusters, and the metadata on disk is what it was. A write that fails has allocated clusters for an
inode it never stores; since its slots form a prefix, it has freed none, and the inode on disk still
owns what it owned.
-/

set_option autoImplicit false
set_option relaxedAutoImplicit false

namespace NoOsKernel.Fs

open Lib

variable {s s' : FsState} {held : Finset ℕ} {ino : ℕ} {i : FsInode}

/-! ### Freeing -/

/-- The clusters in the listed block slots of an inode. -/
def slotClusters (i : FsInode) (js : List ℕ) : List ℕ := (js.map i.block).filter (· ≠ 0)

theorem mem_slotClusters {js : List ℕ} {c : ℕ} :
    c ∈ slotClusters i js ↔ c ≠ 0 ∧ ∃ j ∈ js, i.block j = c := by
  simp only [slotClusters, List.mem_filter, List.mem_map, decide_eq_true_eq]
  exact and_comm

theorem slotClusters_cons_of_ne {js : List ℕ} {j : ℕ} (hne : i.block j ≠ 0) :
    slotClusters i (j :: js) = i.block j :: slotClusters i js := by
  rw [slotClusters, List.map_cons, List.filter_cons_of_pos (by simpa using hne), slotClusters]

theorem slotClusters_cons_of_eq {js : List ℕ} {j : ℕ} (heq : i.block j = 0) :
    slotClusters i (j :: js) = slotClusters i js := by
  rw [slotClusters, List.map_cons, List.filter_cons_of_neg (by simp [heq]), slotClusters]

theorem fsFreeCluster_of_lt {c : ℕ} (hc : c < s.blockCount) :
    fsFreeCluster s c = s.withClusters (bitClr s.clusterBitmap c) := if_pos hc

/-- The loop of `fs_unlink` clears the bits of the inode's clusters. -/
theorem freeAll_eq (hlt : ∀ j < fsMaxBlocks, i.block j ≠ 0 → i.block j < s.blockCount) :
    freeAll s i = s.withClusters
      ((slotClusters i (List.range fsMaxBlocks)).foldl bitClr s.clusterBitmap) := by
  have hloop : ∀ (js : List ℕ) (t : FsState), (∀ j ∈ js, i.block j ≠ 0 → i.block j < t.blockCount) →
      js.foldl (fun s j ↦ if i.block j ≠ 0 then fsFreeCluster s (i.block j) else s) t =
        t.withClusters ((slotClusters i js).foldl bitClr t.clusterBitmap) := by
    intro js
    induction js with
    | nil => exact fun t _ ↦ rfl
    | cons j rest ih =>
      intro t ht
      have hrest : ∀ k ∈ rest, i.block k ≠ 0 → i.block k < t.blockCount := fun k hk ↦
        ht k (List.mem_cons_of_mem _ hk)
      rw [List.foldl_cons]
      split_ifs with hz
      · rw [fsFreeCluster_of_lt (ht j (List.mem_cons_self ..) hz), slotClusters_cons_of_ne hz]
        exact ih (t.withClusters _) hrest
      · rw [ih _ hrest, slotClusters_cons_of_eq (not_not.mp hz)]
  exact hloop _ s fun j hj ↦ hlt j (List.mem_range.mp hj)

/-- The first loop of `fs_write_file` clears the bits of the clusters it drops from the inode. -/
theorem freeBlocks_eq (js : List ℕ) (hnodup : js.Nodup) (hjs : ∀ j ∈ js, j < fsMaxBlocks)
    (hlt : ∀ j ∈ js, i.block j ≠ 0 → i.block j < s.blockCount) :
    (freeBlocks js s i).1 = s.withClusters ((slotClusters i js).foldl bitClr s.clusterBitmap) ∧
      ∀ k, (freeBlocks js s i).2.block k = if k ∈ js then 0 else i.block k := by
  induction js generalizing s i with
  | nil => exact ⟨rfl, fun k ↦ rfl⟩
  | cons j rest ih =>
    obtain ⟨hj, hrest⟩ := List.nodup_cons.mp hnodup
    have hjlt := hjs j (List.mem_cons_self ..)
    have hjs' : ∀ k ∈ rest, k < fsMaxBlocks := fun k hk ↦ hjs k (List.mem_cons_of_mem _ hk)
    rw [freeBlocks]
    split_ifs with hz
    · -- the slot is cleared in the inode, which the later slots do not see
      have hkeep : ∀ k ∈ rest, (i.setBlock j 0).block k = i.block k := by
        intro k hk
        rw [FsInode.block_setBlock i hjlt, if_neg (fun heq ↦ hj (by rwa [heq] at hk))]
      have hclusters : slotClusters (i.setBlock j 0) rest = slotClusters i rest := by
        rw [slotClusters, slotClusters, List.map_congr_left hkeep]
      rw [fsFreeCluster_of_lt (hlt j (List.mem_cons_self ..) hz)]
      obtain ⟨hstate, hblock⟩ := ih
        (s := s.withClusters (bitClr s.clusterBitmap (i.block j))) hrest hjs' fun k hk hne ↦ by
          rw [hkeep k hk] at hne ⊢
          exact hlt k (List.mem_cons_of_mem _ hk) hne
      refine ⟨?_, fun k ↦ ?_⟩
      · rw [hstate, hclusters, slotClusters_cons_of_ne hz]
        rfl
      · rw [hblock, FsInode.block_setBlock i hjlt]
        by_cases hk : k = j
        · simp [hk]
        · simp [hk]
    · obtain ⟨hstate, hblock⟩ := ih hrest hjs' fun k hk ↦ hlt k (List.mem_cons_of_mem _ hk)
      refine ⟨by rw [hstate, slotClusters_cons_of_eq (not_not.mp hz)], fun k ↦ ?_⟩
      rw [hblock]
      by_cases hk : k = j
      · simp [hk, hj, not_not.mp hz]
      · simp [hk]

theorem freeBlocks_of_zero (js : List ℕ) (h : ∀ j ∈ js, i.block j = 0) :
    freeBlocks js s i = (s, i) := by
  induction js with
  | nil => rfl
  | cons j rest ih =>
    rw [freeBlocks, if_neg (not_not.mpr (h j (List.mem_cons_self ..)))]
    exact ih fun k hk ↦ h k (List.mem_cons_of_mem _ hk)

/-! ### Counting clusters -/

/-- The number of free clusters in the RAM bitmap. -/
def freeClusters (s : FsState) : ℕ := clearCount s.clusterBitmap 1 s.blockCount

/-- The number of block slots of an inode that hold a cluster. -/
def usedSlots (i : FsInode) : ℕ := (slotClusters i (List.range fsMaxBlocks)).length

theorem usedSlots_eq_countP (i : FsInode) :
    usedSlots i = (List.range fsMaxBlocks).countP fun j ↦ i.block j ≠ 0 := by
  rw [usedSlots, slotClusters, ← List.countP_eq_length_filter, List.countP_map]
  rfl

/-- The number of used slots when these are the first `n`. -/
theorem usedSlots_eq {n : ℕ} (hn : n ≤ fsMaxBlocks)
    (hblock : ∀ j < fsMaxBlocks, i.block j ≠ 0 ↔ j < n) : usedSlots i = n := by
  have hsplit : List.range fsMaxBlocks = List.range n ++ List.range' n (fsMaxBlocks - n) := by
    have happ := @List.range'_append_1 0 n (fsMaxBlocks - n)
    rw [Nat.zero_add, Nat.add_sub_cancel' hn] at happ
    rw [List.range_eq_range', List.range_eq_range', happ]
  have hused : (List.range n).countP (fun j ↦ i.block j ≠ 0) = n := by
    refine (List.countP_eq_length.mpr fun j hj ↦ ?_).trans List.length_range
    have hjn := List.mem_range.mp hj
    exact decide_eq_true ((hblock j (by omega)).mpr hjn)
  have hempty : (List.range' n (fsMaxBlocks - n)).countP (fun j ↦ i.block j ≠ 0) = 0 := by
    refine List.countP_eq_zero.mpr fun j hj ↦ ?_
    rw [List.mem_range'_1] at hj
    rw [decide_eq_true_eq, hblock j (by omega)]
    omega
  rw [usedSlots_eq_countP, hsplit, List.countP_append, hused, hempty, Nat.add_zero]

/-- An inode without a gap between its used slots uses the first ones. -/
theorem usedSlots_of_prefix
    (hpre : ∀ j, j + 1 < fsMaxBlocks → i.block (j + 1) ≠ 0 → i.block j ≠ 0) :
    usedSlots i ≤ fsMaxBlocks ∧ ∀ j < fsMaxBlocks, i.block j ≠ 0 ↔ j < usedSlots i := by
  have hprefix : ∀ m ≤ fsMaxBlocks, ∃ n ≤ m, ∀ j < m, i.block j ≠ 0 ↔ j < n := by
    intro m
    induction m with
    | zero => exact fun _ ↦ ⟨0, le_refl 0, fun j hj ↦ absurd hj (Nat.not_lt_zero j)⟩
    | succ m ih =>
      intro hm
      obtain ⟨n, hn, hiff⟩ := ih (by omega)
      by_cases hz : i.block m = 0
      · refine ⟨n, by omega, fun j hj ↦ ?_⟩
        rcases Nat.lt_succ_iff_lt_or_eq.mp hj with hlt | rfl
        · exact hiff j hlt
        · exact iff_of_false (not_not.mpr hz) (by omega)
      · -- the slot below is in use too, so the prefix has no gap
        have hfull : n = m := by
          by_contra hne
          have hm' : m - 1 + 1 = m := by omega
          have hlast := (hiff (m - 1) (by omega)).mp (hpre (m - 1) (by omega) (by rwa [hm']))
          omega
        refine ⟨m + 1, le_refl _, fun j hj ↦ iff_of_true ?_ hj⟩
        rcases Nat.lt_succ_iff_lt_or_eq.mp hj with hlt | rfl
        · exact (hiff j hlt).mpr (by omega)
        · exact hz
  obtain ⟨n, hn, hiff⟩ := hprefix fsMaxBlocks (le_refl _)
  rw [usedSlots_eq hn hiff]
  exact ⟨hn, hiff⟩

/-- An empty slot gets a cluster. -/
theorem usedSlots_setBlock {j c : ℕ} (hj : j < fsMaxBlocks) (hzero : i.block j = 0)
    (hblock : (i.setBlock j c).block j ≠ 0) : usedSlots (i.setBlock j c) = usedSlots i + 1 := by
  rw [usedSlots_eq_countP, usedSlots_eq_countP]
  refine countP_eq_add_one List.nodup_range (List.mem_range.mpr hj) ?_ ?_ fun k hk ↦ ?_
  · simp [hzero]
  · exact decide_eq_true hblock
  · rw [FsInode.block_setBlock i hj, if_neg hk]

/-- Clearing the bits of marked clusters leaves so many more free. -/
theorem freeClusters_clear (hbase : FsBase s) {clusters : List ℕ} (hnodup : clusters.Nodup)
    (hmarked : ∀ c ∈ clusters, Marked s c) :
    freeClusters (s.withClusters (clusters.foldl bitClr s.clusterBitmap)) =
      freeClusters s + clusters.length := by
  have hloop : ∀ (cs : List ℕ) (bm : List Byte), cs.Nodup →
      (∀ c ∈ cs, 1 ≤ c ∧ c < s.blockCount ∧ c < bitLen bm ∧ bitGet bm c = true) →
      clearCount (cs.foldl bitClr bm) 1 s.blockCount =
        clearCount bm 1 s.blockCount + cs.length := by
    intro cs
    induction cs with
    | nil => exact fun _ _ _ ↦ rfl
    | cons c rest ih =>
      intro bm hnodup hin
      obtain ⟨hc, hrest⟩ := List.nodup_cons.mp hnodup
      obtain ⟨hpos, hlt, hlen, hset⟩ := hin c (List.mem_cons_self ..)
      rw [List.foldl_cons, ih _ hrest fun k hk ↦ ?_, clearCount_bitClr hpos hlt hlen hset,
        List.length_cons]
      · omega
      · obtain ⟨hkpos, hklt, hklen, hkset⟩ := hin k (List.mem_cons_of_mem _ hk)
        refine ⟨hkpos, hklt, by rwa [bitLen, length_bitClr], ?_⟩
        have hne : k ≠ c := fun heq ↦ hc (heq ▸ hk)
        rw [bitGet_bitClr hlen, hkset]
        simp [hne]
  exact hloop clusters s.clusterBitmap hnodup fun c hc ↦
    ⟨(hmarked c hc).1, (hmarked c hc).2.1, hbase.cluster_lt_bitLen (hmarked c hc).2.1,
      (hmarked c hc).2.2⟩

/-- The clusters in the slots of a live inode are different and marked. -/
theorem FsInv.slotClusters_marked (h : FsInv s held) (hlive : Live s ino) {js : List ℕ}
    (hnodup : js.Nodup) (hjs : ∀ j ∈ js, j < fsMaxBlocks) :
    (slotClusters (readInode s ino) js).Nodup ∧
      ∀ c ∈ slotClusters (readInode s ino) js, Marked s c := by
  constructor
  · rw [slotClusters, List.Nodup, List.pairwise_filter, List.pairwise_map]
    refine List.Pairwise.imp_of_mem (fun {j k} hj hk hjk ↦ ?_) hnodup
    intro hz _ heq
    exact hjk (FsInvOn.slot_inj h hlive hlive (hjs j hj) (hjs k hk) (of_decide_eq_true hz) heq).2
  · intro c hc
    obtain ⟨hz, j, hj, rfl⟩ := mem_slotClusters.mp hc
    exact FsInvOn.slot_marked h hlive (hjs j hj) hz

/-! ### The first loop of `fs_write_file` -/

/-- The first loop of `fs_write_file`, on a live inode: the inode in RAM loses the slots from `n`
on, and its other slots still own their clusters. -/
theorem freeBlocks_spec (h : FsInv s held) (hlive : Live s ino) (hne : ino ≠ 0) {n : ℕ} :
    FsInvOn (freeBlocks (List.range' n (fsMaxBlocks - n)) s (readInode s ino)).1 held
        (slotsWith s ino (freeBlocks (List.range' n (fsMaxBlocks - n)) s (readInode s ino)).2) ∧
      Frame s (freeBlocks (List.range' n (fsMaxBlocks - n)) s (readInode s ino)).1 ∧
      (freeBlocks (List.range' n (fsMaxBlocks - n)) s (readInode s ino)).1 =
        s.withClusters ((slotClusters (readInode s ino)
          (List.range' n (fsMaxBlocks - n))).foldl bitClr s.clusterBitmap) ∧
      ∀ k, (freeBlocks (List.range' n (fsMaxBlocks - n)) s (readInode s ino)).2.block k =
        if n ≤ k ∧ k < fsMaxBlocks then 0 else (readInode s ino).block k := by
  have hmem : ∀ k, k ∈ List.range' n (fsMaxBlocks - n) ↔ n ≤ k ∧ k < fsMaxBlocks := by
    intro k
    rw [List.mem_range'_1]
    omega
  have hown : ∀ k ∈ List.range' n (fsMaxBlocks - n), (readInode s ino).block k ≠ 0 →
      ownerOf (Live s) (fun i ↦ (readInode s i).block) held (.slot ino k) =
        some ((readInode s ino).block k) := fun k hk hz ↦
    ownerOf_slot.mpr ⟨hlive, ((hmem k).mp hk).2, hz, rfl⟩
  obtain ⟨hstate, hblock⟩ := freeBlocks_eq (s := s) (i := readInode s ino)
    (List.range' n (fsMaxBlocks - n)) List.nodup_range' (fun k hk ↦ ((hmem k).mp hk).2)
    fun k hk hz ↦ (FsInvOn.slot_marked h hlive ((hmem k).mp hk).2 hz).2.1
  simp only [hmem] at hblock
  rw [hstate]
  refine ⟨?_, frame_withClusters s _, rfl, hblock⟩
  refine FsInvOn.release h _ (fun c hc ↦ ?_) (fun o ↦ ∃ k, n ≤ k ∧ o = .slot ino k)
    (fun j ↦ ?_) (fun k hk j hj hz ↦ ?_) (fun o c ho ↦ ?_) fun c hc ↦ ?_
  · obtain ⟨hz, k, hk, rfl⟩ := mem_slotClusters.mp hc
    exact (FsInvOn.slot_marked h hlive ((hmem k).mp hk).2 hz).2.1
  · rw [slotsWith, if_neg (Ne.symm hne)]
  · -- the slots that are left are still a prefix
    rw [slotsWith] at hz ⊢
    split_ifs at hz ⊢ with heq
    · rw [hblock] at hz ⊢
      split_ifs at hz with hin
      · exact absurd rfl hz
      · rw [if_neg (by omega)]
        exact h.slots_pre ino hlive j hj hz
    · exact h.slots_pre k hk j hj hz
  · cases o with
    | held a => exact ⟨ownerOf_held.mpr (ownerOf_held.mp ho), by simp⟩
    | slot k j =>
      obtain ⟨hk, hj, hz, heq⟩ := ownerOf_slot.mp ho
      rw [slotsWith] at hz heq
      split_ifs at hz heq with hkino
      · subst hkino
        rw [hblock] at hz heq
        split_ifs at hz heq with hin
        · exact absurd rfl hz
        · refine ⟨ownerOf_slot.mpr ⟨hk, hj, hz, heq⟩, ?_⟩
          rintro ⟨k', hk', hsame⟩
          injection hsame with _ hjk
          omega
      · refine ⟨ownerOf_slot.mpr ⟨hk, hj, hz, heq⟩, ?_⟩
        rintro ⟨k', hk', hsame⟩
        injection hsame with hkk
        exact hkino hkk
  · obtain ⟨hz, k, hk, rfl⟩ := mem_slotClusters.mp hc
    exact ⟨.slot ino k, ⟨k, ((hmem k).mp hk).1, rfl⟩, hown k hk hz⟩

/-! ### Writing -/

/-- The inode `i'` keeps the block slots that `i` uses. -/
def Extends (i i' : FsInode) : Prop := ∀ k, i.block k ≠ 0 → i'.block k = i.block k

theorem Extends.trans {i' i'' : FsInode} (h : Extends i i') (h' : Extends i' i'') :
    Extends i i'' := fun k hk ↦ by
  have hk' : i'.block k ≠ 0 := by rwa [h k hk]
  rw [h' k hk', h k hk]

/-- The block slots after a step that left the inode table alone. -/
theorem FsInvOn.reslot (h : FsInvOn s' held (slotsWith s ino i)) (hframe : Frame s s') :
    FsInvOn s' held (slotsWith s' ino i) := by
  refine h.transport_same h.base ⟨rfl, fun _ ↦ rfl⟩ (fun _ hbit ↦ hbit) (fun _ hk ↦ hk)
    fun k hk j ↦ ?_
  rw [slotsWith, slotsWith, hframe.inodes k (h.dir.live_lt hk)]

/-- A cluster number fits the 32 bits of a block slot. -/
theorem FsBase.blockCount_le (h : FsBase s) : s.blockCount ≤ 2 ^ 32 := by
  have hfits := h.sbOk.fits
  unfold FsState.blockCount
  omega

/-- Giving an empty slot of the inode in RAM a fresh cluster. -/
theorem FsInvOn.fillSlot (h : FsInvOn s held (slotsWith s ino i)) (hne : ino ≠ 0) {j : ℕ}
    (hj : j < fsMaxBlocks) (hpre : ∀ k < j, i.block k ≠ 0) (hzero : i.block j = 0) {c : ℕ}
    (halloc : fsAllocCluster s = some (c, s')) :
    FsInvOn s' held (slotsWith s' ino (i.setBlock j c)) ∧ Frame s s' ∧
      (∀ k, (i.setBlock j c).block k = if k = j then c else i.block k) ∧
      0 < c ∧ bitGet s.clusterBitmap c = false ∧
      s' = s.withClusters (bitSet s.clusterBitmap c) ∧ freeClusters s' + 1 = freeClusters s := by
  obtain ⟨hfirst, rfl⟩ := fsAllocCluster_eq_some h.base.mounted halloc
  obtain ⟨hpos, hlt, hclear⟩ := firstClear_eq_some hfirst
  have hblock : ∀ k, (i.setBlock j c).block k = if k = j then c else i.block k := by
    intro k
    rw [FsInode.block_setBlock i hj, Nat.mod_eq_of_lt (hlt.trans_le h.base.blockCount_le)]
  have hroot : ∀ k, slotsWith s ino (i.setBlock j c) 0 k = slotsWith s ino i 0 k := fun k ↦ by
    rw [slotsWith, slotsWith, if_neg (Ne.symm hne), if_neg (Ne.symm hne)]
  have hslots : ∀ k, Live s k → ∀ m, m + 1 < fsMaxBlocks →
      slotsWith s ino (i.setBlock j c) k (m + 1) ≠ 0 → slotsWith s ino (i.setBlock j c) k m ≠ 0 := by
    intro k hk m hm hz
    have hold := h.slots_pre k hk m hm
    rw [slotsWith] at hz hold ⊢
    split_ifs at hz hold ⊢ with heq
    · rw [hblock] at hz ⊢
      by_cases hmj : m = j
      · rw [if_pos hmj]
        omega
      · rw [if_neg hmj]
        by_cases hmj' : m + 1 = j
        · exact hpre m (by omega)
        · rw [if_neg hmj'] at hz
          exact hold hz
    · exact hold hz
  have hown : ∀ o k, ownerOf (Live s) (slotsWith s ino (i.setBlock j c)) held o = some k →
      ownerOf (Live s) (slotsWith s ino i) held o = some k ∨ (o = .slot ino j ∧ k = c) := by
    intro o k ho
    cases o with
    | held a => exact Or.inl (ownerOf_held.mpr (ownerOf_held.mp ho))
    | slot m l =>
      obtain ⟨hm, hl, hz, heq⟩ := ownerOf_slot.mp ho
      by_cases hmine : m = ino ∧ l = j
      · obtain ⟨rfl, rfl⟩ := hmine
        rw [slotsWith, if_pos rfl, hblock, if_pos rfl] at heq
        exact Or.inr ⟨rfl, heq.symm⟩
      · have hsame : slotsWith s ino (i.setBlock j c) m l = slotsWith s ino i m l := by
          rw [slotsWith, slotsWith]
          split_ifs with hmino
          · rw [hblock, if_neg fun hlj ↦ hmine ⟨hmino, hlj⟩]
          · rfl
        rw [hsame] at hz heq
        exact Or.inl (ownerOf_slot.mpr ⟨hm, hl, hz, heq⟩)
  obtain ⟨-, -, hinv⟩ := h.alloc halloc (.slot ino j) hroot hslots hown
  exact ⟨hinv, frame_withClusters s _, hblock, hpos, hclear, rfl,
    clearCount_bitSet hpos hlt (h.base.cluster_lt_bitLen hlt) hclear⟩

/-- Writing the cluster of a slot of the inode in RAM. -/
theorem FsInvOn.writeOwned (h : FsInvOn s held (slotsWith s ino i)) (hlive : Live s ino)
    (hne : ino ≠ 0) {j : ℕ} (hj : j < fsMaxBlocks) (hz : i.block j ≠ 0) (buf : Block) :
    fsClusterWrite s (i.block j) buf = some (s.setCluster (i.block j) buf) ∧
      i.block j < s.blockCount ∧
      FsInvOn (s.setCluster (i.block j) buf) held
        (slotsWith (s.setCluster (i.block j) buf) ino i) ∧
      Frame s (s.setCluster (i.block j) buf) := by
  have hself : slotsWith s ino i ino j = i.block j := by rw [slotsWith, if_pos rfl]
  have hmarked : Marked s (i.block j) := by
    rw [← hself] at hz ⊢
    exact h.slot_marked hlive hj hz
  have hdir : i.block j ≠ (rootLoad s).block 0 := by
    rw [← h.root_blk, ← hself]
    intro heq
    exact hne (h.slot_inj hlive (Live.root s) hj (by decide) (by rwa [hself]) heq).1
  have hframe := frame_setCluster h hmarked hdir buf
  exact ⟨fsClusterWrite_of_lt hmarked.2.1 buf, hmarked.2.1,
    (h.setCluster hmarked hdir buf).reslot hframe, hframe⟩

/-- What the rounds `j` to `n - 1` of the loop do: each slot gets a cluster, a fresh one where it had
none, and the cluster gets its block of the file. Nothing else changes, and a fresh cluster is free
no more. -/
structure Wrote (data : ℕ → Byte) (size : ℕ) (s : FsState) (i : FsInode) (j n : ℕ) (t : FsState)
    (i' : FsInode) : Prop where
  sb : t.sb = s.sb
  used : ∀ k < n, i'.block k ≠ 0
  same : ∀ k, k < j ∨ n ≤ k ∨ i.block k ≠ 0 → i'.block k = i.block k
  fresh : ∀ k < n, i.block k = 0 → bitGet s.clusterBitmap (i'.block k) = false
  length : t.clusterBitmap.length = s.clusterBitmap.length
  bits : ∀ c, bitGet t.clusterBitmap c = true ↔
    bitGet s.clusterBitmap c = true ∨ ∃ k < n, i.block k = 0 ∧ i'.block k = c
  written : ∀ k, j ≤ k → k < n → t.cluster (i'.block k) = fileBlock data size k
  kept : ∀ c, 0 < c → c < s.blockCount → (∀ k, j ≤ k → k < n → i'.block k ≠ c) →
    t.cluster c = s.cluster c
  count : freeClusters t + usedSlots i' = freeClusters s + usedSlots i

namespace Wrote

variable {data : ℕ → Byte} {size j n : ℕ} {t : FsState} {i' : FsInode}

theorem ext (h : Wrote data size s i j n t i') : Extends i i' :=
  fun k hk ↦ h.same k (Or.inr (Or.inr hk))

theorem none (hpre : ∀ k < j, i.block k ≠ 0) : Wrote data size s i j j s i where
  sb := rfl
  used := hpre
  same _ _ := rfl
  fresh k hk hz := absurd hz (hpre k hk)
  length := rfl
  bits c := by
    refine (or_iff_left ?_).symm
    rintro ⟨k, hk, hz, -⟩
    exact hpre k hk hz
  written k hj hk := absurd hk (not_lt.mpr hj)
  kept _ _ _ _ := rfl
  count := rfl

/-- One round, and the rounds after it. -/
theorem cons {s₁ : FsState} {i₁ : FsInode} (h₁ : Wrote data size s i j (j + 1) s₁ i₁)
    (h : Wrote data size s₁ i₁ (j + 1) n t i') (hj : j < n)
    (hpos : 0 < i'.block j) (hlt : i'.block j < s.blockCount)
    (hinj : ∀ k < n, k ≠ j → i'.block k ≠ i'.block j) : Wrote data size s i j n t i' where
  sb := h.sb.trans h₁.sb
  used := h.used
  same k hk := by
    rcases hk with hlow | hhigh | hz
    · rw [h.same k (Or.inl (by omega)), h₁.same k (Or.inl hlow)]
    · rw [h.same k (Or.inr (Or.inl hhigh)), h₁.same k (Or.inr (Or.inl (by omega)))]
    · have hkeep := h₁.same k (Or.inr (Or.inr hz))
      rw [h.same k (Or.inr (Or.inr (by rwa [hkeep]))), hkeep]
  fresh k hk hz := by
    by_cases hkj : k < j + 1
    · rw [h.same k (Or.inl hkj)]
      exact h₁.fresh k hkj hz
    · have hkeep : i₁.block k = 0 := by rw [h₁.same k (Or.inr (Or.inl (by omega))), hz]
      by_contra hset
      rw [Bool.not_eq_false] at hset
      have hset₁ := (h₁.bits _).mpr (Or.inl hset)
      rw [h.fresh k hk hkeep] at hset₁
      exact Bool.false_ne_true hset₁
  length := h.length.trans h₁.length
  bits c := by
    rw [h.bits, h₁.bits, or_assoc]
    refine or_congr_right ⟨?_, ?_⟩
    · rintro (⟨k, hk, hz, heq⟩ | ⟨k, hk, hz, heq⟩)
      · exact ⟨k, by omega, hz, by rw [h.same k (Or.inl hk), heq]⟩
      · refine ⟨k, hk, ?_, heq⟩
        by_contra hne
        exact hne (by rw [← h₁.same k (Or.inr (Or.inr hne)), hz])
    · rintro ⟨k, hk, hz, heq⟩
      by_cases hkj : k < j + 1
      · exact Or.inl ⟨k, hkj, hz, by rw [← h.same k (Or.inl hkj), heq]⟩
      · exact Or.inr ⟨k, hk, by rw [h₁.same k (Or.inr (Or.inl (by omega))), hz], heq⟩
  written k hjk hk := by
    by_cases hkj : k = j
    · subst hkj
      have hkeep := h.same k (Or.inl (Nat.lt_succ_self k))
      have hlt₁ : i'.block k < s₁.blockCount := by rwa [FsState.blockCount, h₁.sb]
      rw [h.kept _ hpos hlt₁ fun l hl hln ↦ hinj l hln (by omega), hkeep]
      exact h₁.written k le_rfl (Nat.lt_succ_self k)
    · exact h.written k (by omega) hk
  kept c hc hclt hother := by
    have hclt₁ : c < s₁.blockCount := by rwa [FsState.blockCount, h₁.sb]
    rw [h.kept c hc hclt₁ fun k hk hkn ↦ hother k (by omega) hkn]
    refine h₁.kept c hc hclt fun k hjk hk ↦ ?_
    rw [← h.same k (Or.inl hk)]
    exact hother k hjk (by omega)
  count := h.count.trans h₁.count

end Wrote

/-- Storing the block of a slot that has a cluster. -/
theorem FsInvOn.wrote (h : FsInvOn s held (slotsWith s ino i)) {j : ℕ}
    (hpre : ∀ k < j, i.block k ≠ 0) (hz : i.block j ≠ 0) (hlt : i.block j < s.blockCount)
    (data : ℕ → Byte) (size : ℕ) :
    Wrote data size s i j (j + 1) (s.setCluster (i.block j) (fileBlock data size j)) i where
  sb := rfl
  used k hk := by
    by_cases hkj : k = j
    · rwa [hkj]
    · exact hpre k (by omega)
  same _ _ := rfl
  fresh k hk hzero := by
    by_cases hkj : k = j
    · exact absurd (hkj ▸ hzero) hz
    · exact absurd hzero (hpre k (by omega))
  length := rfl
  bits c := by
    refine (or_iff_left ?_).symm
    rintro ⟨k, hk, hzero, -⟩
    by_cases hkj : k = j
    · exact hz (hkj ▸ hzero)
    · exact hpre k (by omega) hzero
  written k hjk hk := by
    obtain rfl : k = j := by omega
    exact cluster_setCluster_same _ _ _
  kept c hc hclt hother :=
    cluster_setCluster_of_ne _ h.base.sbOk hlt hclt (hother j le_rfl (Nat.lt_succ_self j)).symm
  count := rfl

/-- One round of the loop: it fails for want of a free cluster, or the slot now has one. -/
theorem writeSlot_spec (h : FsInvOn s held (slotsWith s ino i)) (hlive : Live s ino)
    (hne : ino ≠ 0) {j : ℕ} (hj : j < fsMaxBlocks) (hpre : ∀ k < j, i.block k ≠ 0)
    (data : ℕ → Byte) (size : ℕ) :
    (writeSlot data size j s i = (none, s) ∧ i.block j = 0 ∧ freeClusters s = 0) ∨
      ∃ i' t, writeSlot data size j s i = (some i', t) ∧ FsInvOn t held (slotsWith t ino i') ∧
        Frame s t ∧ Wrote data size s i j (j + 1) t i' := by
  by_cases hzero : i.block j = 0
  · rcases halloc : fsAllocCluster s with - | ⟨c, s₁⟩
    · refine Or.inl ⟨by simp only [writeSlot, hzero, if_true, halloc, Option.map_none], hzero, ?_⟩
      rw [fsAllocCluster, if_pos h.base.mounted, Option.map_eq_none_iff] at halloc
      exact firstClear_eq_none halloc
    · obtain ⟨hinv, hframe, hblock, hpos, hclear, hs₁, hcount⟩ :=
        h.fillSlot hne hj hpre hzero halloc
      have hself : (i.setBlock j c).block j = c := (hblock j).trans (if_pos rfl)
      have hkeep : ∀ k ≠ j, (i.setBlock j c).block k = i.block k :=
        fun k hk ↦ (hblock k).trans (if_neg hk)
      have hz : (i.setBlock j c).block j ≠ 0 := by
        rw [hself]
        exact hpos.ne'
      obtain ⟨hwrite, hlt, hinv', hframe'⟩ := hinv.writeOwned
        ((hframe.dir.live ino).mpr hlive) hne hj hz (fileBlock data size j)
      have hwrote := hinv.wrote (fun k hk ↦ by rw [hkeep k hk.ne]; exact hpre k hk) hz hlt data size
      have hclt : c < s.blockCount := by
        rw [hself, hs₁] at hlt
        exact hlt
      have hbits : ∀ k, bitGet s₁.clusterBitmap k = true ↔
          bitGet s.clusterBitmap k = true ∨ k = c := by
        intro k
        rw [hs₁, FsState.withClusters, bitGet_bitSet (h.base.cluster_lt_bitLen hclt),
          Bool.or_eq_true, decide_eq_true_eq, or_comm]
      refine Or.inr ⟨_, _, ?_, hinv', hframe.trans hframe', ?_⟩
      · simp only [writeSlot, hzero, if_true, halloc, Option.map_some, hwrite]
      · refine ⟨?_, hwrote.used, fun k hk ↦ hkeep k ?_, fun k hk hkz ↦ ?_, ?_, fun k ↦ ?_,
          hwrote.written, fun k hk hklt hother ↦ ?_, ?_⟩
        · rw [hwrote.sb, hs₁, FsState.withClusters]
        · rintro rfl
          rcases hk with hlow | hhigh | hnz
          · omega
          · omega
          · exact hnz hzero
        · by_cases hkj : k = j
          · rw [hkj, hself]
            exact hclear
          · exact absurd hkz (hpre k (by omega))
        · rw [hwrote.length, hs₁, FsState.withClusters, length_bitSet]
        · rw [hwrote.bits, hbits, or_assoc]
          refine or_congr_right ⟨?_, ?_⟩
          · rintro (rfl | ⟨l, hl, hlz, rfl⟩)
            · exact ⟨j, Nat.lt_succ_self j, hzero, hself⟩
            · exact absurd hlz (hwrote.used l hl)
          · rintro ⟨l, hl, hlz, rfl⟩
            by_cases hlj : l = j
            · exact Or.inl (by rw [hlj, hself])
            · exact absurd hlz (hpre l (by omega))
        · rw [hwrote.kept k hk (by rw [hs₁]; exact hklt) hother, hs₁]
          rfl
        · rw [hwrote.count, usedSlots_setBlock hj hzero hz]
          omega
  · obtain ⟨hwrite, hlt, hinv, hframe⟩ := h.writeOwned hlive hne hj hzero (fileBlock data size j)
    refine Or.inr ⟨i, _, ?_, hinv, hframe, h.wrote hpre hzero hlt data size⟩
    simp only [writeSlot, hzero, if_false, hwrite]

/-- What the second loop of `fs_write_file` leaves, from slot `j` on: it writes all slots, or it stops
at an empty one, when there is no free cluster left. -/
theorem writeBlocks_spec (m : ℕ) {j : ℕ} (h : FsInvOn s held (slotsWith s ino i))
    (hlive : Live s ino) (hne : ino ≠ 0) (hm : j + m ≤ fsMaxBlocks)
    (hpre : ∀ k < j, i.block k ≠ 0) (data : ℕ → Byte) (size : ℕ) :
    ∃ n i' t, j ≤ n ∧ FsInvOn t held (slotsWith t ino i') ∧ Frame s t ∧
      Wrote data size s i j n t i' ∧
      (writeBlocks data size (List.range' j m) s i = (some i', t) ∧ n = j + m ∨
        writeBlocks data size (List.range' j m) s i = (none, t) ∧ n < j + m ∧ i'.block n = 0 ∧
          freeClusters t = 0) := by
  induction m generalizing s i j with
  | zero => exact ⟨j, i, s, le_rfl, h, Frame.refl s, Wrote.none hpre, Or.inl ⟨rfl, rfl⟩⟩
  | succ m ih =>
    have hj : j < fsMaxBlocks := by omega
    rw [List.range'_succ, writeBlocks]
    rcases writeSlot_spec h hlive hne hj hpre data size with
      ⟨heq, hzero, hfull⟩ | ⟨i₁, s₁, heq, hinv, hframe, hwrote⟩
    · rw [heq]
      exact ⟨j, i, s, le_rfl, h, Frame.refl s, Wrote.none hpre,
        Or.inr ⟨rfl, by omega, hzero, hfull⟩⟩
    · rw [heq]
      have hlive₁ := (hframe.dir.live ino).mpr hlive
      obtain ⟨n, i', t, hjn, hinv', hframe', hrest, hcases⟩ :=
        ih hinv hlive₁ (by omega) hwrote.used
      have hself : ∀ k, slotsWith t ino i' ino k = i'.block k := fun k ↦ by
        rw [slotsWith, if_pos rfl]
      have hlive' := (hframe'.dir.live ino).mpr hlive₁
      have hz := hrest.used j hjn
      have hmarked := hinv'.slot_marked hlive' hj (by rwa [hself])
      rw [hself] at hmarked
      have hlt : i'.block j < s.blockCount := by
        have hsb := hrest.sb.trans hwrote.sb
        rw [FsState.blockCount, ← hsb]
        exact hmarked.2.1
      refine ⟨n, i', t, by omega, hinv', hframe.trans hframe', hwrote.cons hrest hjn hmarked.1 hlt ?_,
        ?_⟩
      · intro k hk hkj heq
        have hkmax : k < fsMaxBlocks := by
          rcases hcases with ⟨-, hn⟩ | ⟨-, hn, -⟩ <;> omega
        refine hkj (hinv'.slot_inj hlive' hlive' hkmax hj ?_ ?_).2
        · rw [hself]
          exact hrest.used k hk
        · rw [hself, hself]
          exact heq
      · rcases hcases with ⟨hok, hn⟩ | ⟨hfail, hn, hzero, hfull⟩
        · exact Or.inl ⟨hok, by omega⟩
        · exact Or.inr ⟨hfail, by omega, hzero, hfull⟩

/-! ### `fs_write_file` -/

/-- A live inode that kept its place and contents. -/
def Kept (s s' : FsState) (k : ℕ) : Prop := Live s k ∧ readInode s' k = readInode s k

theorem size_finishInode (i : FsInode) (size ticks : ℕ) :
    (finishInode i size ticks).size = size % 2 ^ 64 := by
  rw [finishInode, FsInode.size_setMode, FsInode.size_setNlinks, FsInode.size_setMtime,
    FsInode.size_setSize]

theorem block_finishInode (i : FsInode) (size ticks j : ℕ) :
    (finishInode i size ticks).block j = i.block j := by
  rw [finishInode, FsInode.block_setMode, FsInode.block_setNlinks, FsInode.block_setMtime,
    FsInode.block_setSize]

/-- A write whose loop fails leaves the inode on disk the owner of its clusters. -/
theorem FsInv.of_failed_write {t : FsState} {i' : FsInode} (h : FsInv s held)
    (hinv : FsInvOn t held (slotsWith t ino i')) (hframe : Frame s t)
    (hext : Extends (readInode s ino) i') (hlive : Live s ino) : FsInv t held := by
  have hread : ∀ k, Live t k → (readInode t k).block = (readInode s k).block := fun k hk ↦ by
    rw [hframe.inodes k (hinv.dir.live_lt hk)]
  refine FsInvOn.shrink hinv (fun j ↦ ?_) (fun k hk j hj hz ↦ ?_) fun k hk j hz ↦ ?_
  · rw [hinv.root_blk, hinv.base.rootLoad_eq]
  · rw [hread k hk] at hz ⊢
    exact h.slots_pre k ((hframe.dir.live k).mp hk) j hj hz
  · rw [slotsWith]
    split_ifs with heq
    · subst heq
      rw [hread k hk] at hz ⊢
      exact hext j hz
    · rfl

/-- The first loop of `fs_write_file`, on clusters: those past the new end are free again. -/
structure Dropped (s : FsState) (ino n : ℕ) (s₁ : FsState) (i₁ : FsInode) : Prop where
  sb : s₁.sb = s.sb
  disk : s₁.disk = s.disk
  block : ∀ k, i₁.block k = if n ≤ k ∧ k < fsMaxBlocks then 0 else (readInode s ino).block k
  count : freeClusters s₁ + usedSlots i₁ = freeClusters s + usedSlots (readInode s ino)
  bits : ∀ c, bitGet s₁.clusterBitmap c = true ↔ bitGet s.clusterBitmap c = true ∧
    c ∉ slotClusters (readInode s ino) (List.range' n (fsMaxBlocks - n))

theorem FsInv.dropped (h : FsInv s held) (hlive : Live s ino) {n : ℕ} (hn : n ≤ fsMaxBlocks)
    {s₁ : FsState} {i₁ : FsInode} (hs₁ : s₁ = s.withClusters ((slotClusters (readInode s ino)
      (List.range' n (fsMaxBlocks - n))).foldl bitClr s.clusterBitmap))
    (hblock : ∀ k, i₁.block k =
      if n ≤ k ∧ k < fsMaxBlocks then 0 else (readInode s ino).block k) :
    Dropped s ino n s₁ i₁ := by
  have hjs : ∀ j ∈ List.range' n (fsMaxBlocks - n), j < fsMaxBlocks := by
    intro j hj
    rw [List.mem_range'_1] at hj
    omega
  obtain ⟨hnodup, hmarked⟩ := h.slotClusters_marked hlive List.nodup_range' hjs
  have hfree := freeClusters_clear h.base hnodup hmarked
  obtain ⟨-, hbits⟩ := clear_bits s.clusterBitmap _ fun c hc ↦
    h.base.cluster_lt_bitLen (hmarked c hc).2.1
  rw [← hs₁] at hfree
  refine ⟨by rw [hs₁]; rfl, by rw [hs₁]; rfl, hblock, ?_, fun c ↦ by rw [hs₁]; exact hbits c⟩
  have happ := @List.range'_append_1 0 n (fsMaxBlocks - n)
  rw [Nat.zero_add, Nat.add_sub_cancel' hn] at happ
  have hused : ∀ i : FsInode, usedSlots i = (slotClusters i (List.range' 0 n)).length +
      (slotClusters i (List.range' n (fsMaxBlocks - n))).length := by
    intro i
    rw [usedSlots, List.range_eq_range', ← happ, slotClusters, List.map_append, List.filter_append,
      List.length_append]
    rfl
  have hlow : slotClusters i₁ (List.range' 0 n) =
      slotClusters (readInode s ino) (List.range' 0 n) := by
    rw [slotClusters, slotClusters, List.map_congr_left fun k hk ↦ ?_]
    rw [List.mem_range'_1] at hk
    rw [hblock, if_neg (by omega)]
  have hhigh : slotClusters i₁ (List.range' n (fsMaxBlocks - n)) = [] := by
    rw [slotClusters, List.filter_eq_nil_iff]
    intro c hc
    obtain ⟨k, hk, rfl⟩ := List.mem_map.mp hc
    rw [List.mem_range'_1] at hk
    rw [hblock, if_pos (by omega)]
    simp
  rw [hfree, hused, hused, hlow, hhigh, List.length_nil]
  omega

namespace Dropped

variable {n : ℕ} {s₁ : FsState} {i₁ : FsInode}

/-- A slot that is still in use is the one on disk. -/
theorem block_of_ne (h : Dropped s ino n s₁ i₁) {k : ℕ} (hz : i₁.block k ≠ 0) :
    i₁.block k = (readInode s ino).block k := by
  have hblock := h.block k
  split_ifs at hblock with hin
  · exact absurd hblock hz
  · exact hblock

/-- A mark that is still there. -/
theorem bit_of_not_mem (h : Dropped s ino n s₁ i₁) (hn : n ≤ fsMaxBlocks) {c : ℕ}
    (hbit : bitGet s.clusterBitmap c = true)
    (hnot : c ∉ slotClusters (readInode s ino) (List.range fsMaxBlocks)) :
    bitGet s₁.clusterBitmap c = true := by
  refine (h.bits c).mpr ⟨hbit, fun hin ↦ hnot ?_⟩
  obtain ⟨hz, k, hk, hkc⟩ := mem_slotClusters.mp hin
  rw [List.mem_range'_1] at hk
  exact mem_slotClusters.mpr ⟨hz, k, List.mem_range.mpr (by omega), hkc⟩

end Dropped

/-- A write that ran out of free clusters at slot `n`. -/
structure OutOfClusters (data : ℕ → Byte) (size : ℕ) (s : FsState) (ino n : ℕ) (t : FsState)
    (i' : FsInode) : Prop where
  small : fileBlocks size ≤ fsMaxBlocks
  lt : n < fileBlocks size
  wrote : Wrote data size s (readInode s ino) 0 n t i'
  empty : i'.block n = 0
  full : freeClusters t = 0
  short : freeClusters s + usedSlots (readInode s ino) < fileBlocks size

/-- What `fs_write_file` does to a live file. -/
structure WriteSpec (s : FsState) (held : Finset ℕ) (ino : ℕ) (data : ℕ → Byte) (size : ℕ)
    (ok : Bool) (t : FsState) : Prop where
  inv : FsInv t held
  sb : t.sb = s.sb
  dir : SameDir s t
  inodeBitmap : t.inodeBitmap = s.inodeBitmap
  diskBitmap : t.diskBitmap = s.diskBitmap
  others : ∀ k, Live s k → k ≠ ino → readInode t k = readInode s k
  kept : ∀ c, Marked s c → c ∉ slotClusters (readInode s ino) (List.range fsMaxBlocks) →
    t.cluster c = s.cluster c
  failed : ok = false → readInode t ino = readInode s ino ∧
    (fsMaxBlocks < fileBlocks size ∧ t = s ∨ ∃ n i', OutOfClusters data size s ino n t i')
  stored : ok = true → (readInode t ino).size = size % 2 ^ 64 ∧ fileBlocks size ≤ fsMaxBlocks ∧
    (∀ k < fsMaxBlocks, (readInode t ino).block k ≠ 0 ↔ k < fileBlocks size) ∧
    ∀ k < fileBlocks size, t.cluster ((readInode t ino).block k) = fileBlock data size k
  count : ok = true →
    freeClusters t + fileBlocks size = freeClusters s + usedSlots (readInode s ino)
  bits : ok = true → ∀ c, bitGet t.clusterBitmap c = true ↔
    (bitGet s.clusterBitmap c = true ∧
        c ∉ slotClusters (readInode s ino) (List.range fsMaxBlocks)) ∨
      c ∈ slotClusters (readInode t ino) (List.range fsMaxBlocks)
  fresh : ok = true → ∀ c ∈ slotClusters (readInode t ino) (List.range fsMaxBlocks),
    c ∈ slotClusters (readInode s ino) (List.range fsMaxBlocks) ∨ bitGet s.clusterBitmap c = false

section Stored

variable {data : ℕ → Byte} {size n : ℕ} {s₁ t : FsState} {i₁ i' : FsInode}

/-- A write does not touch the clusters of others: what it writes it owns, or takes from the free
ones. -/
theorem Wrote.kept_of_marked (h : Wrote data size s₁ i₁ 0 n t i') (hn : n ≤ fsMaxBlocks)
    {n' : ℕ} (hn' : n' ≤ fsMaxBlocks) (hdrop : Dropped s ino n' s₁ i₁) {c : ℕ} (hc : Marked s c)
    (hnot : c ∉ slotClusters (readInode s ino) (List.range fsMaxBlocks)) :
    t.cluster c = s.cluster c := by
  have hsame : s₁.cluster c = s.cluster c := by
    rw [FsState.cluster, FsState.cluster, FsState.dataStart, FsState.dataStart, hdrop.sb,
      hdrop.disk]
  rw [← hsame]
  refine h.kept c hc.1 (by rw [FsState.blockCount, hdrop.sb]; exact hc.2.1) fun k _ hk heq ↦ ?_
  by_cases hz : i₁.block k = 0
  · have hclear := h.fresh k hk hz
    rw [heq, hdrop.bit_of_not_mem hn' hc.2.2 hnot] at hclear
    exact Bool.false_ne_true hclear.symm
  · refine hnot (mem_slotClusters.mpr ⟨hc.1.ne', k, List.mem_range.mpr (by omega), ?_⟩)
    rw [← hdrop.block_of_ne hz, ← h.same k (Or.inr (Or.inr hz)), heq]

/-- The bitmap behind a write: the file gives up its clusters and marks those it has at the end. -/
theorem Wrote.bits_slots (h : Wrote data size s₁ i₁ 0 (fileBlocks size) t i')
    (hsmall : fileBlocks size ≤ fsMaxBlocks) (hdrop : Dropped s ino (fileBlocks size) s₁ i₁)
    (howned : ∀ k < fsMaxBlocks, i'.block k ≠ 0 → Marked t (i'.block k)) (c : ℕ) :
    bitGet t.clusterBitmap c = true ↔
      (bitGet s.clusterBitmap c = true ∧
          c ∉ slotClusters (readInode s ino) (List.range fsMaxBlocks)) ∨
        c ∈ slotClusters i' (List.range fsMaxBlocks) := by
  refine (h.bits c).trans ?_
  rw [hdrop.bits]
  constructor
  · rintro (⟨hbit, hnot⟩ | ⟨k, hk, -, rfl⟩)
    · by_cases hold : c ∈ slotClusters (readInode s ino) (List.range fsMaxBlocks)
      · -- a slot that is kept
        right
        obtain ⟨hz, k, hk, rfl⟩ := mem_slotClusters.mp hold
        have hkmax := List.mem_range.mp hk
        have hkn : k < fileBlocks size := by
          by_contra hkn
          exact hnot (mem_slotClusters.mpr ⟨hz, k, by rw [List.mem_range'_1]; omega, rfl⟩)
        have hkeep : i₁.block k = (readInode s ino).block k := by
          rw [hdrop.block, if_neg (by omega)]
        refine mem_slotClusters.mpr ⟨hz, k, hk, ?_⟩
        rw [h.same k (Or.inr (Or.inr (by rwa [hkeep]))), hkeep]
      · exact Or.inl ⟨hbit, hold⟩
    · exact Or.inr (mem_slotClusters.mpr ⟨h.used k hk, k, List.mem_range.mpr (by omega), rfl⟩)
  · rintro (⟨hbit, hnot⟩ | hnew)
    · exact Or.inl ((hdrop.bits c).mp (hdrop.bit_of_not_mem hsmall hbit hnot))
    · obtain ⟨hz, k, hk, rfl⟩ := mem_slotClusters.mp hnew
      rw [← hdrop.bits]
      exact (h.bits _).mp (howned k (List.mem_range.mp hk) hz).2.2

/-- What the file has at the end it had before, or it was free. -/
theorem Wrote.fresh_slots (h : Wrote data size s₁ i₁ 0 (fileBlocks size) t i')
    (hsmall : fileBlocks size ≤ fsMaxBlocks) (hdrop : Dropped s ino (fileBlocks size) s₁ i₁)
    (hslots : ∀ k < fsMaxBlocks, i'.block k ≠ 0 ↔ k < fileBlocks size) {c : ℕ}
    (hc : c ∈ slotClusters i' (List.range fsMaxBlocks)) :
    c ∈ slotClusters (readInode s ino) (List.range fsMaxBlocks) ∨
      bitGet s.clusterBitmap c = false := by
  obtain ⟨hz, k, hk, rfl⟩ := mem_slotClusters.mp hc
  have hkn := (hslots k (List.mem_range.mp hk)).mp hz
  by_cases hold : i₁.block k = 0
  · by_contra hnot
    rw [not_or, Bool.not_eq_false] at hnot
    have hset := hdrop.bit_of_not_mem hsmall hnot.2 hnot.1
    rw [h.fresh k hkn hold] at hset
    exact Bool.false_ne_true hset
  · refine Or.inl (mem_slotClusters.mpr ⟨hz, k, hk, ?_⟩)
    rw [h.same k (Or.inr (Or.inr hold)), hdrop.block_of_ne hold]

/-- A write that gets through stores the inode. -/
theorem WriteSpec.of_stored (h : FsInv s held) (hlive : Live s ino) (hne : ino ≠ 0)
    (hsmall : fileBlocks size ≤ fsMaxBlocks) (hdrop : Dropped s ino (fileBlocks size) s₁ i₁)
    (hinv : FsInvOn t held (slotsWith t ino i')) (hframe : Frame s t)
    (hwrote : Wrote data size s₁ i₁ 0 (fileBlocks size) t i') (ticks : ℕ) :
    WriteSpec s held ino data size true (writeInode t ino (finishInode i' size ticks)) := by
  have hino := h.dir.live_lt hlive
  have hsb : t.sb = s.sb := hwrote.sb.trans hdrop.sb
  have hslots : ∀ k < fsMaxBlocks, i'.block k ≠ 0 ↔ k < fileBlocks size := by
    intro k hk
    by_cases hkn : k < fileBlocks size
    · exact iff_of_true (hwrote.used k hkn) hkn
    · rw [hwrote.same k (Or.inr (Or.inl (by omega))), hdrop.block, if_pos (by omega)]
      exact iff_of_false (not_not.mpr rfl) hkn
  have hclusters : slotClusters (readInode (writeInode t ino (finishInode i' size ticks)) ino)
      (List.range fsMaxBlocks) = slotClusters i' (List.range fsMaxBlocks) := by
    rw [readInode_writeInode_same, slotClusters, slotClusters,
      List.map_congr_left fun k _ ↦ block_finishInode i' size ticks k]
  have howned : ∀ k < fsMaxBlocks, i'.block k ≠ 0 → Marked t (i'.block k) := by
    intro k hk hz
    have hmarked := hinv.slot_marked ((hframe.dir.live ino).mpr hlive) hk
      (by rwa [slotsWith, if_pos rfl])
    rwa [slotsWith, if_pos rfl] at hmarked
  refine ⟨hinv.storeInode hino hne (block_finishInode i' size ticks), hsb,
    hframe.dir.trans (sameDir_writeInode hinv hino hne _), hframe.inodeBitmap,
    (diskBitmap_writeInode _ hinv.base.sbOk hino).trans hframe.diskBitmap,
    fun k hk hkne ↦ ?_, fun c hc hnot ↦ ?_, fun hfalse ↦ absurd hfalse.symm Bool.false_ne_true,
    fun _ ↦ ⟨?_, hsmall, fun k hk ↦ ?_, fun k hk ↦ ?_⟩, fun _ ↦ ?_, fun _ c ↦ ?_,
    fun _ c hc ↦ ?_⟩
  · have hklt := h.dir.live_lt hk
    rw [readInode_writeInode_of_ne _ hinv.base.sbOk hino hklt hkne, hframe.inodes k hklt]
  · rw [cluster_writeInode _ hinv.base.sbOk hino hc.1 (by
      rw [FsState.blockCount, hsb]; exact hc.2.1), hwrote.kept_of_marked hsmall hsmall hdrop hc hnot]
  · rw [readInode_writeInode_same, size_finishInode]
  · rw [readInode_writeInode_same, block_finishInode, hslots k hk]
  · have hmarked := howned k (by omega) (hwrote.used k hk)
    rw [readInode_writeInode_same, block_finishInode,
      cluster_writeInode _ hinv.base.sbOk hino hmarked.1 hmarked.2.1,
      hwrote.written k (Nat.zero_le k) hk]
  · rw [← hdrop.count, ← usedSlots_eq hsmall hslots]
    exact hwrote.count
  · rw [hclusters]
    exact hwrote.bits_slots hsmall hdrop howned c
  · rw [hclusters] at hc
    exact hwrote.fresh_slots hsmall hdrop hslots hc

/-- A write that stops for want of a cluster has freed none, and stores no inode. -/
theorem WriteSpec.of_full (h : FsInv s held) (hlive : Live s ino)
    (hsmall : fileBlocks size ≤ fsMaxBlocks) (hdrop : Dropped s ino (fileBlocks size) s i₁)
    (hi₁ : i₁ = readInode s ino) (hinv : FsInvOn t held (slotsWith t ino i')) (hframe : Frame s t)
    (hwrote : Wrote data size s i₁ 0 n t i') (hn : n < fileBlocks size)
    (hempty : i'.block n = 0) (hfull : freeClusters t = 0) :
    WriteSpec s held ino data size false t := by
  have hfalse : ∀ {p : Prop}, false = true → p := fun hf ↦ absurd hf Bool.false_ne_true
  have hkept := fun c (hc : Marked s c) ↦ hwrote.kept_of_marked (c := c) (by omega) hsmall hdrop hc
  subst hi₁
  have hz : (readInode s ino).block n = 0 := by
    by_contra hz
    rw [hwrote.same n (Or.inr (Or.inr hz))] at hempty
    exact hz hempty
  have hused : usedSlots i' = n := usedSlots_eq (by omega) fun k hk ↦ by
    by_cases hkn : k < n
    · exact iff_of_true (hwrote.used k hkn) hkn
    · rw [hwrote.same k (Or.inr (Or.inl (by omega))),
        FsInvOn.slots_zero h hlive hz (not_lt.mp hkn) hk]
      exact iff_of_false (not_not.mpr rfl) hkn
  have hsum := hwrote.count
  exact ⟨h.of_failed_write hinv hframe hwrote.ext hlive, hwrote.sb, hframe.dir, hframe.inodeBitmap,
    hframe.diskBitmap, fun k hk _ ↦ hframe.inodes k (h.dir.live_lt hk), hkept,
    fun _ ↦ ⟨hframe.inodes ino (h.dir.live_lt hlive),
      Or.inr ⟨n, i', hsmall, hn, hwrote, hempty, hfull, by omega⟩⟩, hfalse, hfalse, hfalse, hfalse⟩

end Stored

/-- `fs_write_file` keeps the directory, the inode marks and the bitmap on disk. A call that returns
`-1` changes no inode; one that returns `0` stores an inode whose first `fileBlocks size` slots, and
no others, have a cluster, with the bytes of the file. -/
theorem fsWriteFile_spec (h : FsInv s held) (hlive : Live s ino) (hne : ino ≠ 0)
    (data : ℕ → Byte) (size ticks : ℕ) :
    WriteSpec s held ino data size (fsWriteFile s ino data size ticks).1
      (fsWriteFile s ino data size ticks).2 := by
  have hmounted : (!s.mounted) = false := by rw [h.base.mounted]; rfl
  by_cases hbig : fileBlocks size > fsMaxBlocks
  · have heq : fsWriteFile s ino data size ticks = (false, s) := by
      rw [fsWriteFile, hmounted, if_neg Bool.false_ne_true, if_pos hbig]
    have hfalse : ∀ {p : Prop}, false = true → p := fun hf ↦ absurd hf Bool.false_ne_true
    rw [heq]
    exact ⟨h, rfl, ⟨rfl, fun _ ↦ rfl⟩, rfl, rfl, fun _ _ _ ↦ rfl, fun _ _ _ ↦ rfl,
      fun _ ↦ ⟨rfl, Or.inl ⟨hbig, rfl⟩⟩, hfalse, hfalse, hfalse, hfalse⟩
  · have hsmall : fileBlocks size ≤ fsMaxBlocks := not_lt.mp hbig
    obtain ⟨hinv, hframe, hstate, hblock⟩ := freeBlocks_spec h hlive hne (n := fileBlocks size)
    rcases hfree : freeBlocks (List.range' (fileBlocks size) (fsMaxBlocks - fileBlocks size)) s
      (readInode s ino) with ⟨s₁, i₁⟩
    rw [hfree] at hinv hframe hstate hblock
    have hdrop := h.dropped hlive hsmall hstate hblock
    obtain ⟨n, i', t, -, hinv', hframe', hwrote, hcases⟩ := writeBlocks_spec (fileBlocks size)
      (hinv.reslot hframe) ((hframe.dir.live ino).mpr hlive) hne (j := 0) (by omega)
      (fun k hk ↦ absurd hk (Nat.not_lt_zero k)) data size
    rw [← List.range_eq_range', Nat.zero_add] at hcases
    rcases hcases with ⟨heq, rfl⟩ | ⟨heq, hlt, hzero, hfull⟩
    · have heq' : fsWriteFile s ino data size ticks =
          (true, writeInode t ino (finishInode i' size ticks)) := by
        rw [fsWriteFile, hmounted, if_neg Bool.false_ne_true, if_neg hbig]
        simp only [hfree, heq]
      rw [heq']
      exact .of_stored h hlive hne hsmall hdrop hinv' (hframe.trans hframe') hwrote ticks
    · -- an empty slot below `fileBlocks size`: the first loop had nothing to free
      have hkz : (readInode s ino).block n = 0 := by
        by_contra hz
        have hkeep : i₁.block n = (readInode s ino).block n := by
          rw [hblock, if_neg (by omega)]
        rw [hwrote.same n (Or.inr (Or.inr (by rwa [hkeep]))), hkeep] at hzero
        exact hz hzero
      have heq' : fsWriteFile s ino data size ticks = (false, t) := by
        rw [fsWriteFile, hmounted, if_neg Bool.false_ne_true, if_neg hbig]
        simp only [hfree, heq]
      rw [heq']
      rw [freeBlocks_of_zero] at hfree
      · obtain ⟨rfl, rfl⟩ := Prod.mk.injEq .. ▸ hfree
        exact .of_full h hlive hsmall hdrop rfl hinv' (hframe.trans hframe') hwrote hlt hzero hfull
      · intro m hm
        rw [List.mem_range'_1] at hm
        exact FsInvOn.slots_zero h hlive hkz (by omega) (by omega)

end NoOsKernel.Fs
