import NoOsKernel.Fs.Session

/-!
# The reported free space

`fs_free_bytes` counts the clear bits of the cluster bitmap from bit 0 on, `fs_alloc_cluster` searches
them from bit 1 on. `fs_format` leaves bit 0 clear, and no allocation sets it.
-/

set_option autoImplicit false
set_option relaxedAutoImplicit false

namespace NoOsKernel.Fs

open Lib

/-! ### Runs -/

/-- `fs_free_bytes` -/
def fsFreeBytes (s : FsState) : ℕ :=
  if s.mounted then clearCount s.clusterBitmap 0 s.blockCount * fsBlockSize else 0

/-- `fs_alloc_cluster` and `fs_free_cluster`. -/
inductive ClusterOp
  | alloc
  | free (c : ℕ)
  deriving DecidableEq

def clusterStep (s : FsState) : ClusterOp → FsState
  | .alloc => ((fsAllocCluster s).map Prod.snd).getD s
  | .free c => fsFreeCluster s c

def clusterRun (s : FsState) (ops : List ClusterOp) : FsState := ops.foldl clusterStep s

/-- The clusters of `n` calls of `fs_alloc_cluster` in a row, if all of them succeed. -/
def allocRun : ℕ → FsState → Option (List ℕ × FsState)
  | 0, s => some ([], s)
  | n + 1, s =>
    match fsAllocCluster s with
    | none => none
    | some (c, s) => (allocRun n s).map fun (cs, s) ↦ (c :: cs, s)

/-- As many calls of `fs_alloc_cluster` as there are blocks in `fs_free_bytes` succeed with distinct
clusters, and the next one fails. -/
def FreeIsAllocatable (s : FsState) : Prop :=
  ∃ cs t, allocRun (fsFreeBytes s / fsBlockSize) s = some (cs, t) ∧ cs.Nodup ∧
    fsAllocCluster t = none

variable {s t : FsState}

/-! ### One allocation -/

/-- What an allocation returns: a cluster whose bit was clear, and the state with the bit set. -/
theorem fsAllocCluster_cases {c : ℕ} (h : fsAllocCluster s = some (c, t)) :
    1 ≤ c ∧ c < s.blockCount ∧ bitGet s.clusterBitmap c = false ∧
      t = { s with clusterBitmap := bitSet s.clusterBitmap c } := by
  unfold fsAllocCluster at h
  split_ifs at h
  obtain ⟨c', hfound, heq⟩ := Option.map_eq_some_iff.mp h
  obtain ⟨rfl, rfl⟩ := Prod.mk.inj heq
  obtain ⟨hlow, hhigh, hclear⟩ := firstClear_eq_some hfound
  exact ⟨hlow, hhigh, hclear, rfl⟩

theorem fsAllocCluster_eq_none (hmounted : s.mounted = true) (h : fsAllocCluster s = none) :
    firstClear s.clusterBitmap 1 s.blockCount = none := by
  rwa [fsAllocCluster, if_pos hmounted, Option.map_eq_none_iff] at h

theorem freeClusters_alloc {c : ℕ} (hcovers : s.blockCount ≤ bitLen s.clusterBitmap)
    (h : fsAllocCluster s = some (c, t)) : freeClusters t + 1 = freeClusters s := by
  obtain ⟨hlow, hhigh, hclear, rfl⟩ := fsAllocCluster_cases h
  exact clearCount_bitSet hlow hhigh (hhigh.trans_le hcovers) hclear

/-! ### Allocations in a row -/

/-- A row of allocations is the first one and the others. -/
theorem allocRun_succ {n : ℕ} {cs : List ℕ} (h : allocRun (n + 1) s = some (cs, t)) :
    ∃ c u cs', fsAllocCluster s = some (c, u) ∧ allocRun n u = some (cs', t) ∧ cs = c :: cs' := by
  rw [allocRun] at h
  cases hcall : fsAllocCluster s with
  | none =>
    rw [hcall] at h
    exact absurd h nofun
  | some r =>
    simp only [hcall] at h
    obtain ⟨⟨cs', u⟩, hrest, heq⟩ := Option.map_eq_some_iff.mp h
    obtain ⟨rfl, rfl⟩ := Prod.mk.inj heq
    exact ⟨r.1, r.2, cs', rfl, hrest, rfl⟩

/-- All free clusters can be allocated, and no more. -/
theorem allocRun_freeClusters (hmounted : s.mounted = true)
    (hcovers : s.blockCount ≤ bitLen s.clusterBitmap) {n : ℕ} (hn : freeClusters s = n) :
    ∃ cs t, allocRun n s = some (cs, t) ∧ cs.Nodup ∧
      (∀ c ∈ cs, bitGet s.clusterBitmap c = false) ∧ fsAllocCluster t = none := by
  induction n generalizing s with
  | zero =>
    refine ⟨[], s, rfl, List.nodup_nil, fun _ hc ↦ absurd hc List.not_mem_nil, ?_⟩
    cases hcall : fsAllocCluster s with
    | none => rfl
    | some r =>
      have hcount := freeClusters_alloc hcovers (hcall : fsAllocCluster s = some (r.1, r.2))
      omega
  | succ n ih =>
    cases hcall : fsAllocCluster s with
    | none =>
      have hcount := firstClear_eq_none (fsAllocCluster_eq_none hmounted hcall)
      rw [freeClusters, hcount] at hn
      exact absurd hn (Nat.zero_ne_add_one n)
    | some r =>
      obtain ⟨c, t⟩ := r
      have hcount := freeClusters_alloc hcovers hcall
      obtain ⟨hlow, hhigh, hclear, rfl⟩ := fsAllocCluster_cases hcall
      have hlen : c < bitLen s.clusterBitmap := hhigh.trans_le hcovers
      obtain ⟨cs, u, hrun, hnodup, hall, hend⟩ :=
        ih (s := { s with clusterBitmap := bitSet s.clusterBitmap c }) hmounted
          (by rwa [bitLen, length_bitSet]) (by omega)
      have hbits (c' : ℕ) (hc' : c' ∈ cs) : c' ≠ c ∧ bitGet s.clusterBitmap c' = false := by
        have hbit := hall c' hc'
        rw [bitGet_bitSet hlen, Bool.or_eq_false_iff, decide_eq_false_iff_not] at hbit
        exact hbit
      refine ⟨c :: cs, u, ?_, ?_, ?_, hend⟩
      · simp only [allocRun, hcall, hrun, Option.map_some]
      · exact List.nodup_cons.mpr ⟨fun hmem ↦ (hbits c hmem).1 rfl, hnodup⟩
      · intro c' hc'
        obtain rfl | hc' := List.mem_cons.mp hc'
        · exact hclear
        · exact (hbits c' hc').2

theorem allocRun_le (hcovers : s.blockCount ≤ bitLen s.clusterBitmap) {n : ℕ} {cs : List ℕ}
    (h : allocRun n s = some (cs, t)) : n ≤ freeClusters s := by
  induction n generalizing s cs with
  | zero => exact Nat.zero_le _
  | succ n ih =>
    obtain ⟨c, u, cs', hcall, hrest, -⟩ := allocRun_succ h
    have hcount := freeClusters_alloc hcovers hcall
    obtain ⟨-, -, -, rfl⟩ := fsAllocCluster_cases hcall
    have hle := ih (by rwa [bitLen, length_bitSet]) hrest
    omega

/-- Allocations change the bitmap only, and not its length. -/
theorem allocRun_same {n : ℕ} {cs : List ℕ} (h : allocRun n s = some (cs, t)) :
    t.mounted = s.mounted ∧ t.sb = s.sb ∧ t.clusterBitmap.length = s.clusterBitmap.length := by
  induction n generalizing s cs with
  | zero =>
    obtain ⟨-, rfl⟩ := Prod.mk.inj (Option.some.inj h)
    exact ⟨rfl, rfl, rfl⟩
  | succ n ih =>
    obtain ⟨c, u, cs', hcall, hrest, -⟩ := allocRun_succ h
    obtain ⟨-, -, -, rfl⟩ := fsAllocCluster_cases hcall
    obtain ⟨hmounted, hsb, hlen⟩ := ih hrest
    exact ⟨hmounted, hsb, hlen.trans (length_bitSet _ _)⟩

/-! ### The count -/

/-- Bit 0 is counted where it is clear. -/
theorem clearCount_zero (b : List Byte) {n : ℕ} (hn : 0 < n) :
    clearCount b 0 n = clearCount b 1 n + if bitGet b 0 then 0 else 1 := by
  obtain ⟨m, rfl⟩ := Nat.exists_eq_add_of_lt hn
  rw [clearCount, clearCount, Nat.sub_zero, Nat.zero_add, Nat.add_sub_cancel, List.range'_succ,
    List.countP_cons]
  cases bitGet b 0 <;> rfl

theorem fsFreeBytes_div (hmounted : s.mounted = true) :
    fsFreeBytes s / fsBlockSize = clearCount s.clusterBitmap 0 s.blockCount := by
  rw [fsFreeBytes, if_pos hmounted, Nat.mul_div_cancel _ (by decide)]

/-- If all free space can be allocated, the bitmap has a bit for every cluster: one beyond its end is
never set. -/
theorem FreeIsAllocatable.covers (hmounted : s.mounted = true) (hpos : 0 < s.blockCount)
    (h : FreeIsAllocatable s) : s.blockCount ≤ bitLen s.clusterBitmap := by
  obtain ⟨cs, t, hrun, -, hend⟩ := h
  rw [fsFreeBytes_div hmounted] at hrun
  by_contra hshort
  obtain ⟨hmounted', hsb, hlen⟩ := allocRun_same hrun
  have hnone := fsAllocCluster_eq_none (hmounted'.trans hmounted) hend
  have hlen' : bitLen t.clusterBitmap = bitLen s.clusterBitmap := by
    rw [bitLen, bitLen, hlen]
  have hcount : t.blockCount = s.blockCount := by rw [FsState.blockCount, hsb]
  have hbeyond (c : ℕ) (hc : bitLen s.clusterBitmap ≤ c) (hone : 1 ≤ c) : s.blockCount ≤ c := by
    by_contra hin
    have hset := bitGet_of_firstClear_eq_none hnone hone (by omega : c < t.blockCount)
    rw [bitGet_of_le (hlen'.trans_le hc)] at hset
    exact Bool.noConfusion hset
  -- so there is one cluster, which is counted and cannot be allocated
  have hlast := hbeyond (bitLen s.clusterBitmap + 1) (by omega) (by omega)
  have hempty : bitLen s.clusterBitmap = 0 := by
    by_contra hne
    exact hshort (hbeyond _ (le_refl _) (Nat.pos_of_ne_zero hne))
  have hone : s.blockCount = 1 := by omega
  rw [clearCount_zero _ hpos, bitGet_of_le (by omega), hone] at hrun
  obtain ⟨c, u, cs', hcall, -, -⟩ := allocRun_succ hrun
  obtain ⟨hlow, hhigh, -⟩ := fsAllocCluster_cases hcall
  omega

/-- The free space of a state is allocatable exactly if the bitmap has a bit for every cluster and
that of cluster 0 is set. -/
theorem freeIsAllocatable_iff (hmounted : s.mounted = true) : FreeIsAllocatable s ↔
    s.blockCount = 0 ∨
      s.blockCount ≤ bitLen s.clusterBitmap ∧ bitGet s.clusterBitmap 0 = true := by
  obtain hempty | hpos := Nat.eq_zero_or_pos s.blockCount
  · have hzero : freeClusters s = 0 := by
      rw [freeClusters, hempty]
      rfl
    obtain ⟨cs, t, hrun, hnodup, -, hend⟩ := allocRun_freeClusters hmounted (by omega) hzero
    refine ⟨fun _ ↦ Or.inl hempty, fun _ ↦ ⟨cs, t, ?_, hnodup, hend⟩⟩
    rwa [fsFreeBytes_div hmounted, hempty]
  · constructor
    · intro h
      have hcovers := h.covers hmounted hpos
      obtain ⟨cs, t, hrun, -, -⟩ := h
      have hle := allocRun_le hcovers hrun
      rw [fsFreeBytes_div hmounted, clearCount_zero _ hpos, freeClusters] at hle
      refine Or.inr ⟨hcovers, ?_⟩
      by_contra hclear
      rw [if_neg hclear] at hle
      omega
    · intro h
      obtain ⟨hcovers, hset⟩ := h.resolve_left hpos.ne'
      obtain ⟨cs, t, hrun, hnodup, -, hend⟩ := allocRun_freeClusters hmounted hcovers rfl
      refine ⟨cs, t, ?_, hnodup, hend⟩
      rwa [fsFreeBytes_div hmounted, clearCount_zero _ hpos, if_pos hset, Nat.add_zero]

/-! ### Any calls -/

/-- Allocating and freeing leave the geometry alone. -/
theorem clusterStep_same (s : FsState) (op : ClusterOp) :
    (clusterStep s op).mounted = s.mounted ∧ (clusterStep s op).sb = s.sb ∧
      bitLen (clusterStep s op).clusterBitmap = bitLen s.clusterBitmap := by
  cases op with
  | alloc =>
    cases hcall : fsAllocCluster s with
    | none =>
      simp only [clusterStep, hcall]
      exact ⟨rfl, rfl, rfl⟩
    | some r =>
      obtain ⟨-, -, -, heq⟩ := fsAllocCluster_cases (hcall : _ = some (r.1, r.2))
      simp only [clusterStep, hcall, Option.map_some, Option.getD_some, heq]
      exact ⟨trivial, trivial, by rw [bitLen, bitLen, length_bitSet]⟩
  | free c =>
    simp only [clusterStep, fsFreeCluster]
    split_ifs
    · exact ⟨rfl, rfl, by rw [bitLen, bitLen, length_bitClr]⟩
    · exact ⟨rfl, rfl, rfl⟩

/-- Bit 0 is cleared when cluster 0 is freed, and never set. -/
theorem clusterStep_bit_zero (hpos : 0 < s.blockCount) (hcovers : s.blockCount ≤ bitLen s.clusterBitmap)
    (op : ClusterOp) : bitGet (clusterStep s op).clusterBitmap 0 = true ↔
      bitGet s.clusterBitmap 0 = true ∧ .free 0 ≠ op := by
  cases op with
  | alloc =>
    cases hcall : fsAllocCluster s with
    | none =>
      simp only [clusterStep, hcall, Option.map_none, Option.getD_none]
      exact ⟨fun h ↦ ⟨h, nofun⟩, And.left⟩
    | some r =>
      obtain ⟨hlow, hhigh, -, heq⟩ := fsAllocCluster_cases (hcall : _ = some (r.1, r.2))
      simp only [clusterStep, hcall, Option.map_some, Option.getD_some, heq]
      rw [bitGet_bitSet (hhigh.trans_le hcovers), decide_eq_false (by omega), Bool.false_or]
      exact ⟨fun h ↦ ⟨h, nofun⟩, And.left⟩
  | free c =>
    simp only [clusterStep, fsFreeCluster]
    split_ifs with hc
    · rw [bitGet_bitClr (hc.trans_le hcovers), Bool.and_eq_true, Bool.not_eq_true',
        decide_eq_false_iff_not, And.comm]
      refine and_congr_right fun _ ↦ not_congr ?_
      rw [ClusterOp.free.injEq]
    · refine ⟨fun h ↦ ⟨h, fun heq ↦ ?_⟩, And.left⟩
      rw [ClusterOp.free.injEq] at heq
      omega

theorem clusterRun_same (s : FsState) (ops : List ClusterOp) :
    (clusterRun s ops).mounted = s.mounted ∧ (clusterRun s ops).sb = s.sb ∧
      bitLen (clusterRun s ops).clusterBitmap = bitLen s.clusterBitmap := by
  induction ops generalizing s with
  | nil => exact ⟨rfl, rfl, rfl⟩
  | cons op ops ih =>
    obtain ⟨hmounted, hsb, hlen⟩ := clusterStep_same s op
    obtain ⟨hmounted', hsb', hlen'⟩ := ih (clusterStep s op)
    exact ⟨hmounted'.trans hmounted, hsb'.trans hsb, hlen'.trans hlen⟩

theorem clusterRun_bit_zero (hpos : 0 < s.blockCount) (hcovers : s.blockCount ≤ bitLen s.clusterBitmap)
    (ops : List ClusterOp) : bitGet (clusterRun s ops).clusterBitmap 0 = true ↔
      bitGet s.clusterBitmap 0 = true ∧ .free 0 ∉ ops := by
  induction ops generalizing s with
  | nil => exact ⟨fun h ↦ ⟨h, List.not_mem_nil⟩, And.left⟩
  | cons op ops ih =>
    obtain ⟨-, hsb, hlen⟩ := clusterStep_same s op
    have hcount : (clusterStep s op).blockCount = s.blockCount := by rw [FsState.blockCount, hsb]
    have hrest := ih (s := clusterStep s op) (by omega) (by omega)
    rw [clusterStep_bit_zero hpos hcovers op] at hrest
    rw [List.mem_cons, not_or, ← and_assoc]
    exact hrest

/-- After any calls in a mounted state the free space is allocatable exactly if there are no clusters,
or the bitmap has a bit for every cluster, that of cluster 0 was set, and cluster 0 was not freed. -/
theorem freeIsAllocatable_run_iff (hmounted : s.mounted = true) (ops : List ClusterOp) :
    FreeIsAllocatable (clusterRun s ops) ↔ s.blockCount = 0 ∨
      s.blockCount ≤ bitLen s.clusterBitmap ∧ bitGet s.clusterBitmap 0 = true ∧ .free 0 ∉ ops := by
  obtain ⟨hmounted', hsb, hlen⟩ := clusterRun_same s ops
  have hcount : (clusterRun s ops).blockCount = s.blockCount := by rw [FsState.blockCount, hsb]
  rw [freeIsAllocatable_iff (hmounted'.trans hmounted), hcount, hlen]
  obtain hempty | hpos := Nat.eq_zero_or_pos s.blockCount
  · exact ⟨fun _ ↦ Or.inl hempty, fun _ ↦ Or.inl hempty⟩
  · exact or_congr_right (and_congr_right fun hcovers ↦ clusterRun_bit_zero hpos hcovers ops)

/-- A mounted state in which the bit of cluster 0 is set. -/
def reservedZero : FsState :=
  { smallSession.fs with clusterBitmap := bitSet smallSession.fs.clusterBitmap 0 }

theorem freeIsAllocatable_run_reservedZero :
    FreeIsAllocatable (clusterRun reservedZero [.alloc, .free 1]) :=
  (freeIsAllocatable_run_iff (by decide +kernel) _).mpr
    (Or.inr ⟨by decide +kernel, by decide +kernel, by decide⟩)

/-- In a filesystem that has just been formatted and mounted one cluster too many is reported. -/
theorem not_freeIsAllocatable_smallSession : ¬ ∀ (s : FsState) (ops : List ClusterOp),
    s.mounted = true → FreeIsAllocatable (clusterRun s ops) := by
  intro h
  have hmounted : smallSession.fs.mounted = true := by decide +kernel
  have hiff := freeIsAllocatable_iff hmounted
  obtain hempty | ⟨-, hset⟩ := hiff.mp (h smallSession.fs [] hmounted)
  · exact absurd hempty (by decide +kernel)
  · exact absurd hset (by decide +kernel)

end NoOsKernel.Fs
