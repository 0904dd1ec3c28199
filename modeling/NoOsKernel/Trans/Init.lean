import NoOsKernel.Lib.StoreLog
import NoOsKernel.Trans.Layout

/-!
# Initialisation of the weights

`weights_rndinit` as a log of stores (`initLog`): the final byte at an address is a constant or a
draw of the generator, as the last store there says. The matrices of a layer are filled in one run of
`4 * D * D + 2 * D * F` bytes from its start, but the vectors of the first layer norm lie between
them, so the run ends `2 * D` bytes before the last matrix does.
-/

set_option autoImplicit false
set_option relaxedAutoImplicit false

namespace NoOsKernel.Trans

open Lib

/-! ### The log -/

/-- Where a stored byte came from: the source text or the generator. -/
inductive Origin
  | fixed (v : Byte)
  | drawn
  deriving DecidableEq

/-- A store of the log carried out. -/
def Weights.store (w : Weights) : ℕ × Origin → Weights
  | (k, .fixed v) => w.put k v
  | (k, .drawn) => w.putRnd k

def Weights.run (w : Weights) (log : List (ℕ × Origin)) : Weights := log.foldl Weights.store w

/-- The run over the matrices of layer `l`. -/
def runLog (c : TransCfg) (l : ℕ) : List (ℕ × Origin) :=
  (List.range (4 * c.dModel.toNat * c.dModel.toNat + 2 * c.dModel.toNat * c.dFf.toNat)).map
    fun i ↦ (layOff c l + i, .drawn)

/-- The vectors of the layer norms of layer `l`. -/
def normLog (c : TransCfg) (l : ℕ) : List (ℕ × Origin) :=
  (List.range c.dModel.toNat).flatMap fun i ↦
    [(layOff c l + oLn1g c + i, .fixed 16), (layOff c l + oLn2g c + i, .fixed 16),
      (layOff c l + oLn1b c + i, .fixed 0), (layOff c l + oLn2b c + i, .fixed 0)]

/-- The embedding and the head. -/
def endsLog (c : TransCfg) : List (ℕ × Origin) :=
  (List.range (c.vocab.toNat * c.dModel.toNat)).flatMap fun i ↦
    [(transHdr + i, .drawn),
      (weightsBytesOf c - c.vocab.toNat * c.dModel.toNat + i, .drawn)]

/-- The vectors of the final layer norm. -/
def finLog (c : TransCfg) : List (ℕ × Origin) :=
  (List.range c.dModel.toNat).flatMap fun i ↦
    [(oFinlnG c + i, .fixed 16), (oFinlnB c + i, .fixed 0)]

/-- The stores of `weights_rndinit`. -/
def initLog (c : TransCfg) : List (ℕ × Origin) :=
  ((List.range c.nLayers.toNat).flatMap fun l ↦ runLog c l ++ normLog c l) ++
    (endsLog c ++ finLog c)

variable {c : TransCfg} {w : Weights} {log log' : List (ℕ × Origin)} {k : ℕ}

theorem Weights.run_append (w : Weights) (log log' : List (ℕ × Origin)) :
    w.run (log ++ log') = (w.run log).run log' :=
  List.foldl_append

/-- A log made by a counting loop is carried out by the loop. -/
theorem Weights.run_flatMap (w : Weights) (n : ℕ) (f : ℕ → List (ℕ × Origin)) :
    w.run ((List.range n).flatMap f) = w.loop n fun i w ↦ w.run (f i) := by
  induction n with
  | zero => rfl
  | succ n ih =>
    rw [List.range_succ, List.flatMap_append, List.flatMap_singleton, Weights.run_append, ih]
    simp only [Weights.loop, List.range_succ, List.foldl_append, List.foldl_cons, List.foldl_nil]

/-- `weights_rndinit` carries out the log. -/
theorem weightsRndinit_eq_run (c : TransCfg) (w : Weights) :
    weightsRndinit c w = w.run (initLog c) := by
  have hrun (l : ℕ) : runLog c l = (List.range (4 * c.dModel.toNat * c.dModel.toNat +
      2 * c.dModel.toNat * c.dFf.toNat)).flatMap fun i ↦ [(layOff c l + i, .drawn)] :=
    List.map_eq_flatMap
  simp only [initLog, hrun, normLog, endsLog, finLog, Weights.run_append, Weights.run_flatMap]
  rfl

/-- The byte at an address after a run: what the last store put there, or what was there before. -/
theorem Weights.run_blob (w : Weights) (log : List (ℕ × Origin)) (k : ℕ) :
    (lastAt log k = none → (w.run log).blob k = w.blob k) ∧
      ∀ v, lastAt log k = some (.fixed v) → (w.run log).blob k = v := by
  induction log generalizing w with
  | nil => exact ⟨fun _ ↦ rfl, fun v h ↦ absurd h.symm (Option.some_ne_none _)⟩
  | cons e log ih =>
    obtain ⟨hnone, hsome⟩ := ih (w.store e)
    have hother (hk : e.1 ≠ k) : (w.store e).blob k = w.blob k := by
      obtain ⟨j, v | _⟩ := e
      · exact Function.update_of_ne hk.symm v w.blob
      · exact Function.update_of_ne hk.symm _ w.blob
    constructor
    · intro h
      rw [lastAt, Option.or_eq_none_iff] at h
      refine (hnone h.1).trans (hother fun hk ↦ ?_)
      rw [if_pos hk] at h
      exact Option.some_ne_none _ h.2
    · intro v h
      rw [lastAt, Option.or_eq_some_iff] at h
      obtain hlater | ⟨hlast, hhere⟩ := h
      · exact hsome v hlater
      · obtain ⟨hk, hv⟩ := Option.ite_none_right_eq_some.mp hhere
        obtain ⟨j, origin⟩ := e
        cases hk
        cases hv
        exact (hnone hlast).trans (Function.update_self ..)

/-! ### Where the stores go -/

/-- The offsets of a layer in terms of the sizes of its matrices. -/
theorem layer_offsets (c : TransCfg) :
    oLn1g c = 4 * (c.dModel.toNat * c.dModel.toNat) ∧ oLn1b c = oLn1g c + c.dModel.toNat ∧
      oWup c = oLn1b c + c.dModel.toNat ∧ oWdn c = oWup c + c.dModel.toNat * c.dFf.toNat ∧
      oLn2g c = oWdn c + c.dModel.toNat * c.dFf.toNat ∧ oLn2b c = oLn2g c + c.dModel.toNat ∧
      laySize c = oLn2b c + c.dModel.toNat ∧
      4 * c.dModel.toNat * c.dModel.toNat + 2 * c.dModel.toNat * c.dFf.toNat + 2 * c.dModel.toNat =
        oLn2g c := by
  have hsize : laySize c = laysz c := (laysz_eq_laySize c).symm
  have hmats : 4 * c.dModel.toNat * c.dModel.toNat + 2 * c.dModel.toNat * c.dFf.toNat +
      2 * c.dModel.toNat = oLn2g c := by
    simp only [oLn2g, oLn1b, oLn1g]
    ring
  refine ⟨rfl, rfl, rfl, rfl, ?_, rfl, hsize, hmats⟩
  rw [oLn2g, Nat.mul_comm c.dFf.toNat]
  rfl

theorem layOff_succ (c : TransCfg) (l : ℕ) : layOff c (l + 1) = layOff c l + laySize c := by
  rw [layOff, layOff, Nat.add_one_mul, ← Nat.add_assoc]

theorem layOff_mono (c : TransCfg) : Monotone (layOff c) :=
  monotone_nat_of_le_succ fun l ↦ (layOff_succ c l).symm ▸ Nat.le_add_right _ _

/-- The vectors and the head follow the last layer. -/
theorem ends_offsets (c : TransCfg) :
    layOff c 0 = transHdr + c.vocab.toNat * c.dModel.toNat ∧ oFinlnG c = layOff c c.nLayers.toNat ∧
      oFinlnB c = oFinlnG c + c.dModel.toNat ∧ oHead c = oFinlnB c + c.dModel.toNat ∧
      weightsBytesOf c = oHead c + c.vocab.toNat * c.dModel.toNat := by
  refine ⟨?_, ?_, rfl, rfl, ?_⟩
  · rw [layOff, Nat.zero_mul, Nat.add_zero]
  · rw [oFinlnG, layOff, laysz_eq_laySize]
  · simp only [weightsBytesOf, oHead, oFinlnB, oFinlnG, laysz_eq_laySize]
    ring

variable {l : ℕ} {e : ℕ × Origin}

theorem mem_runLog : e ∈ runLog c l ↔
    ∃ i < 4 * c.dModel.toNat * c.dModel.toNat + 2 * c.dModel.toNat * c.dFf.toNat,
      e = (layOff c l + i, .drawn) := by
  simp only [runLog, List.mem_map, List.mem_range, eq_comm]

theorem mem_normLog : e ∈ normLog c l ↔ ∃ i < c.dModel.toNat,
    e = (layOff c l + oLn1g c + i, .fixed 16) ∨ e = (layOff c l + oLn2g c + i, .fixed 16) ∨
      e = (layOff c l + oLn1b c + i, .fixed 0) ∨ e = (layOff c l + oLn2b c + i, .fixed 0) := by
  simp only [normLog, List.mem_flatMap, List.mem_range, List.mem_cons, List.not_mem_nil, or_false]

theorem mem_endsLog : e ∈ endsLog c ↔ ∃ i < c.vocab.toNat * c.dModel.toNat,
    e = (transHdr + i, .drawn) ∨
      e = (weightsBytesOf c - c.vocab.toNat * c.dModel.toNat + i, .drawn) := by
  simp only [endsLog, List.mem_flatMap, List.mem_range, List.mem_cons, List.not_mem_nil, or_false]

theorem mem_finLog : e ∈ finLog c ↔ ∃ i < c.dModel.toNat,
    e = (oFinlnG c + i, .fixed 16) ∨ e = (oFinlnB c + i, .fixed 0) := by
  simp only [finLog, List.mem_flatMap, List.mem_range, List.mem_cons, List.not_mem_nil, or_false]

/-- The stores of a layer stay in its block. -/
theorem layerLog_bounds (he : e ∈ runLog c l ++ normLog c l) :
    layOff c l ≤ e.1 ∧ e.1 < layOff c (l + 1) := by
  obtain ⟨h1g, h1b, hup, hdn, h2g, h2b, hsize, hmats⟩ := layer_offsets c
  have hnext := layOff_succ c l
  obtain hrun | hnorm := List.mem_append.mp he
  · obtain ⟨i, hi, rfl⟩ := mem_runLog.mp hrun
    exact ⟨by omega, by omega⟩
  · obtain ⟨i, hi, rfl | rfl | rfl | rfl⟩ := mem_normLog.mp hnorm
    all_goals exact ⟨by omega, by omega⟩

/-- The stores behind the layers are in none of their blocks. -/
theorem endsLog_outside (he : e ∈ endsLog c ++ finLog c) :
    e.1 < layOff c 0 ∨ layOff c c.nLayers.toNat ≤ e.1 := by
  obtain ⟨hfirst, hfin, hfinB, hhead, hall⟩ := ends_offsets c
  obtain hends | hvec := List.mem_append.mp he
  · obtain ⟨i, hi, rfl | rfl⟩ := mem_endsLog.mp hends
    · exact Or.inl (by omega)
    · exact Or.inr (by omega)
  · obtain ⟨i, hi, rfl | rfl⟩ := mem_finLog.mp hvec
    all_goals exact Or.inr (by omega)

/-- In the block of a layer only its own stores matter. -/
theorem lastAt_initLog_layer (hl : l < c.nLayers.toNat) (hlow : layOff c l ≤ k)
    (hhigh : k < layOff c (l + 1)) :
    lastAt (initLog c) k = (lastAt (normLog c l) k).or (lastAt (runLog c l) k) := by
  have houtside : lastAt (endsLog c ++ finLog c) k = none := by
    rw [lastAt_eq_none_iff]
    rintro e he rfl
    have hfirst := layOff_mono c (Nat.zero_le l)
    have hlast := layOff_mono c (show l + 1 ≤ c.nLayers.toNat from hl)
    obtain h | h := endsLog_outside he
    all_goals omega
  have helse (i : ℕ) (_ : i < c.nLayers.toNat) (hne : i ≠ l) :
      lastAt (runLog c i ++ normLog c i) k = none := by
    rw [lastAt_eq_none_iff]
    rintro e he rfl
    obtain ⟨hge, hlt⟩ := layerLog_bounds he
    obtain hless | hmore := Nat.lt_or_gt_of_ne hne
    · have hmono := layOff_mono c (show i + 1 ≤ l from hless)
      omega
    · have hmono := layOff_mono c (show l + 1 ≤ i from hmore)
      omega
  rw [initLog, lastAt_append_of_none houtside, lastAt_flatMap hl helse, lastAt_append]

/-- Outside the blocks of the layers only the stores behind them matter. -/
theorem lastAt_initLog_ends (hk : k < layOff c 0 ∨ layOff c c.nLayers.toNat ≤ k) :
    lastAt (initLog c) k = lastAt (endsLog c ++ finLog c) k := by
  have hnone : lastAt ((List.range c.nLayers.toNat).flatMap fun l ↦ runLog c l ++ normLog c l) k =
      none := by
    rw [lastAt_eq_none_iff]
    rintro e he rfl
    obtain ⟨l, hl, hmem⟩ := List.mem_flatMap.mp he
    obtain ⟨hge, hlt⟩ := layerLog_bounds hmem
    have hfirst := layOff_mono c (Nat.zero_le l)
    have hlast := layOff_mono c (show l + 1 ≤ c.nLayers.toNat from List.mem_range.mp hl)
    omega
  rw [initLog, lastAt_append, hnone, Option.or_none]

/-! ### What they leave -/

/-- A gain of a layer is `16` at the end. -/
theorem lastAt_gain (hl : l < c.nLayers.toNat) {i : ℕ} (hi : i < c.dModel.toNat) {o : ℕ}
    (ho : o = oLn1g c ∨ o = oLn2g c) :
    lastAt (initLog c) (layOff c l + o + i) = some (.fixed 16) := by
  obtain ⟨h1g, h1b, hup, hdn, h2g, h2b, hsize, hmats⟩ := layer_offsets c
  have hnext := layOff_succ c l
  have hnorm : lastAt (normLog c l) (layOff c l + o + i) = some (.fixed 16) := by
    refine lastAt_eq_some (mem_normLog.mpr ⟨i, hi, ?_⟩) ?_
    · exact ho.imp (fun h ↦ by rw [h]) fun h ↦ Or.inl (by rw [h])
    · rintro e he hk
      obtain ⟨j, hj, rfl | rfl | rfl | rfl⟩ := mem_normLog.mp he
      · rfl
      · rfl
      · exact absurd hk (by omega)
      · exact absurd hk (by omega)
  rw [lastAt_initLog_layer hl (by omega) (by omega), hnorm, Option.some_or]

/-- A bias of a layer is `0` at the end. -/
theorem lastAt_bias (hl : l < c.nLayers.toNat) {i : ℕ} (hi : i < c.dModel.toNat) {o : ℕ}
    (ho : o = oLn1b c ∨ o = oLn2b c) :
    lastAt (initLog c) (layOff c l + o + i) = some (.fixed 0) := by
  obtain ⟨h1g, h1b, hup, hdn, h2g, h2b, hsize, hmats⟩ := layer_offsets c
  have hnext := layOff_succ c l
  have hnorm : lastAt (normLog c l) (layOff c l + o + i) = some (.fixed 0) := by
    refine lastAt_eq_some (mem_normLog.mpr ⟨i, hi, Or.inr (Or.inr ?_)⟩) ?_
    · exact ho.imp (fun h ↦ by rw [h]) fun h ↦ by rw [h]
    · rintro e he hk
      obtain ⟨j, hj, rfl | rfl | rfl | rfl⟩ := mem_normLog.mp he
      · exact absurd hk (by omega)
      · exact absurd hk (by omega)
      · rfl
      · rfl
  rw [lastAt_initLog_layer hl (by omega) (by omega), hnorm, Option.some_or]

/-- The matrices of a layer are drawn up to `2 * D` bytes before the end of the last one; the bytes
there are never stored at. -/
theorem lastAt_matrix (hl : l < c.nLayers.toNat) {i : ℕ} (hi : i < oLn1g c ∨ oWup c ≤ i)
    (hlt : i < oLn2g c) :
    lastAt (initLog c) (layOff c l + i) =
      if i + 2 * c.dModel.toNat < oLn2g c then some .drawn else none := by
  obtain ⟨h1g, h1b, hup, hdn, h2g, h2b, hsize, hmats⟩ := layer_offsets c
  have hnext := layOff_succ c l
  have hnorm : lastAt (normLog c l) (layOff c l + i) = none := by
    rw [lastAt_eq_none_iff]
    rintro e he hk
    obtain ⟨j, hj, rfl | rfl | rfl | rfl⟩ := mem_normLog.mp he
    all_goals omega
  rw [lastAt_initLog_layer hl (by omega) (by omega), hnorm, Option.none_or]
  split_ifs with hrun
  · refine lastAt_eq_some (mem_runLog.mpr ⟨i, by omega, rfl⟩) fun e he _ ↦ ?_
    obtain ⟨j, -, rfl⟩ := mem_runLog.mp he
    rfl
  · rw [lastAt_eq_none_iff]
    rintro e he hk
    obtain ⟨j, hj, rfl⟩ := mem_runLog.mp he
    omega

theorem lastAt_finG {i : ℕ} (hi : i < c.dModel.toNat) :
    lastAt (initLog c) (oFinlnG c + i) = some (.fixed 16) := by
  obtain ⟨hfirst, hfin, hfinB, hhead, hall⟩ := ends_offsets c
  rw [lastAt_initLog_ends (by omega), lastAt_append, lastAt_eq_some (a := .fixed 16), Option.some_or]
  · exact mem_finLog.mpr ⟨i, hi, Or.inl rfl⟩
  · rintro e he hk
    obtain ⟨j, hj, rfl | rfl⟩ := mem_finLog.mp he
    · rfl
    · exact absurd hk (by omega)

theorem lastAt_finB {i : ℕ} (hi : i < c.dModel.toNat) :
    lastAt (initLog c) (oFinlnB c + i) = some (.fixed 0) := by
  obtain ⟨hfirst, hfin, hfinB, hhead, hall⟩ := ends_offsets c
  rw [lastAt_initLog_ends (by omega), lastAt_append, lastAt_eq_some (a := .fixed 0), Option.some_or]
  · exact mem_finLog.mpr ⟨i, hi, Or.inr rfl⟩
  · rintro e he hk
    obtain ⟨j, hj, rfl | rfl⟩ := mem_finLog.mp he
    · exact absurd hk (by omega)
    · rfl

/-- The embedding and the head are drawn. -/
theorem lastAt_ends {i : ℕ} (hi : i < c.vocab.toNat * c.dModel.toNat) {o : ℕ}
    (ho : o = transHdr ∨ o = oHead c) : lastAt (initLog c) (o + i) = some .drawn := by
  obtain ⟨hfirst, hfin, hfinB, hhead, hall⟩ := ends_offsets c
  have hmono := layOff_mono c (Nat.zero_le c.nLayers.toNat)
  have hvec : lastAt (finLog c) (o + i) = none := by
    rw [lastAt_eq_none_iff]
    rintro e he hk
    obtain ⟨j, hj, rfl | rfl⟩ := mem_finLog.mp he
    all_goals omega
  rw [lastAt_initLog_ends (by omega), lastAt_append_of_none hvec]
  refine lastAt_eq_some (mem_endsLog.mpr ⟨i, hi, ?_⟩) fun e he _ ↦ ?_
  · exact ho.imp (fun h ↦ by rw [h]) fun h ↦ by rw [h, hall, Nat.add_sub_cancel]
  · obtain ⟨j, -, rfl | rfl⟩ := mem_endsLog.mp he
    · rfl
    · rfl

/-! ### Initialisation -/

/-- The gains of the layer norms. -/
def gains (c : TransCfg) : List Tile :=
  (List.range c.nLayers.toNat).flatMap (fun l ↦
    [⟨layOff c l + oLn1g c, c.dModel.toNat⟩, ⟨layOff c l + oLn2g c, c.dModel.toNat⟩]) ++
    [⟨oFinlnG c, c.dModel.toNat⟩]

/-- The biases of the layer norms. -/
def biases (c : TransCfg) : List Tile :=
  (List.range c.nLayers.toNat).flatMap (fun l ↦
    [⟨layOff c l + oLn1b c, c.dModel.toNat⟩, ⟨layOff c l + oLn2b c, c.dModel.toNat⟩]) ++
    [⟨oFinlnB c, c.dModel.toNat⟩]

/-- The matrices of layer `l`. -/
def layerMatrices (c : TransCfg) (l : ℕ) : List Tile :=
  let D := c.dModel.toNat
  let F := c.dFf.toNat
  let o := layOff c l
  [⟨o, D * D⟩, ⟨o + oWk c, D * D⟩, ⟨o + oWv c, D * D⟩, ⟨o + oWo c, D * D⟩, ⟨o + oWup c, D * F⟩,
    ⟨o + oWdn c, F * D⟩]

/-- The embedding, the matrices of the layers and the head. -/
def matrices (c : TransCfg) : List Tile :=
  ⟨transHdr, c.vocab.toNat * c.dModel.toNat⟩ ::
    ((List.range c.nLayers.toNat).flatMap (layerMatrices c) ++
      [⟨oHead c, c.vocab.toNat * c.dModel.toNat⟩])

/-- Every gain is one, every bias zero, and every byte of a matrix a draw of the generator. -/
structure Initialised (c : TransCfg) (blob : Mem) : Prop where
  gains : ∀ t ∈ gains c, ∀ k ∈ t.cells, blob k = 16
  biases : ∀ t ∈ biases c, ∀ k ∈ t.cells, blob k = 0
  matrices : ∀ t ∈ matrices c, ∀ k ∈ t.cells, lastAt (initLog c) k = some .drawn

theorem allocBlob_eq_run (a : Alloc) (s : TransState) : ∃ blob rng,
    (allocBlob a s).blob =
      (Weights.run ⟨hdrWrite s.cfg (memset0 blob (weightsBytesOf s.cfg)), rng⟩ (initLog s.cfg)).blob := by
  simp only [allocBlob]
  split_ifs
  · exact ⟨_, _, congrArg Weights.blob (weightsRndinit_eq_run s.cfg _)⟩
  · exact ⟨_, _, congrArg Weights.blob (weightsRndinit_eq_run s.cfg _)⟩

/-- A byte behind the header that is not stored at is zero. -/
theorem allocBlob_eq_zero (a : Alloc) (s : TransState) (hlow : transHdr ≤ k)
    (hhigh : k < weightsBytesOf s.cfg) (hnone : lastAt (initLog s.cfg) k = none) :
    (allocBlob a s).blob k = 0 := by
  obtain ⟨blob, rng, heq⟩ := allocBlob_eq_run a s
  rw [heq, (Weights.run_blob _ _ k).1 hnone]
  exact (if_neg (Nat.not_lt.mpr hlow)).trans (if_pos hhigh)

/-- Gains and biases always come out right. -/
theorem allocBlob_norms (a : Alloc) (s : TransState) :
    (∀ t ∈ gains s.cfg, ∀ k ∈ t.cells, (allocBlob a s).blob k = 16) ∧
      ∀ t ∈ biases s.cfg, ∀ k ∈ t.cells, (allocBlob a s).blob k = 0 := by
  obtain ⟨blob, rng, hw⟩ := allocBlob_eq_run a s
  have hfixed (k : ℕ) (v : Byte) (h : lastAt (initLog s.cfg) k = some (.fixed v)) :
      (allocBlob a s).blob k = v := by
    rw [hw]
    exact (Weights.run_blob _ (initLog s.cfg) k).2 v h
  constructor
  · intro t ht k hk
    obtain ⟨i, hi, rfl⟩ := Tile.mem_cells_iff.mp hk
    apply hfixed
    obtain hlayer | hfin := List.mem_append.mp ht
    · obtain ⟨l, hl, hmem⟩ := List.mem_flatMap.mp hlayer
      rw [List.mem_range] at hl
      simp only [List.mem_cons, List.not_mem_nil, or_false] at hmem
      obtain rfl | rfl := hmem
      · exact lastAt_gain hl hi (Or.inl rfl)
      · exact lastAt_gain hl hi (Or.inr rfl)
    · obtain rfl := List.mem_singleton.mp hfin
      exact lastAt_finG hi
  · intro t ht k hk
    obtain ⟨i, hi, rfl⟩ := Tile.mem_cells_iff.mp hk
    apply hfixed
    obtain hlayer | hfin := List.mem_append.mp ht
    · obtain ⟨l, hl, hmem⟩ := List.mem_flatMap.mp hlayer
      rw [List.mem_range] at hl
      simp only [List.mem_cons, List.not_mem_nil, or_false] at hmem
      obtain rfl | rfl := hmem
      · exact lastAt_bias hl hi (Or.inl rfl)
      · exact lastAt_bias hl hi (Or.inr rfl)
    · obtain rfl := List.mem_singleton.mp hfin
      exact lastAt_finB hi

/-- Where the matrices of a layer lie in its block. -/
theorem mem_layerMatrices {t : Tile} (ht : t ∈ layerMatrices c l) (hk : k ∈ t.cells) :
    layOff c l ≤ k ∧ k < layOff c l + oLn2g c ∧
      (k < layOff c l + oLn1g c ∨ layOff c l + oWup c ≤ k) := by
  obtain ⟨h1g, h1b, hup, hdn, h2g, h2b, hsize, hmats⟩ := layer_offsets c
  have hcomm := Nat.mul_comm c.dFf.toNat c.dModel.toNat
  simp only [layerMatrices, oWv, oWo, oWk, List.mem_cons, List.not_mem_nil, or_false] at ht
  simp only [Tile.cells, Set.mem_Ico] at hk
  obtain rfl | rfl | rfl | rfl | rfl | rfl := ht
  all_goals
    dsimp only at hk
    omega

/-- The last byte of `Wdn` of a layer is not stored at. -/
theorem lastAt_wdn_end (hl : l < c.nLayers.toNat) (hmodel : c.dModel.toNat ≠ 0) (hff : c.dFf.toNat ≠ 0) :
    lastAt (initLog c) (layOff c l + (oLn2g c - 1)) = none := by
  obtain ⟨h1g, h1b, hup, hdn, h2g, h2b, hsize, hmats⟩ := layer_offsets c
  have hpos : 0 < c.dModel.toNat * c.dFf.toNat :=
    Nat.mul_pos (Nat.pos_of_ne_zero hmodel) (Nat.pos_of_ne_zero hff)
  rw [lastAt_matrix hl (Or.inr (by omega)) (by omega), if_neg (by omega)]

theorem not_initialised (hlayers : c.nLayers.toNat ≠ 0) (hmodel : c.dModel.toNat ≠ 0)
    (hff : c.dFf.toNat ≠ 0) (blob : Mem) : ¬ Initialised c blob := by
  intro h
  obtain ⟨h1g, h1b, hup, hdn, h2g, h2b, hsize, hmats⟩ := layer_offsets c
  have hpos : 0 < c.dModel.toNat * c.dFf.toNat :=
    Nat.mul_pos (Nat.pos_of_ne_zero hmodel) (Nat.pos_of_ne_zero hff)
  have hmem : (⟨layOff c 0 + oWdn c, c.dFf.toNat * c.dModel.toNat⟩ : Tile) ∈ matrices c := by
    refine List.mem_cons_of_mem _ (List.mem_append_left _ (List.mem_flatMap.mpr ⟨0, ?_, ?_⟩))
    · exact List.mem_range.mpr (Nat.pos_of_ne_zero hlayers)
    · simp only [layerMatrices, List.mem_cons, or_true, true_or]
  have hcell := h.matrices _ hmem (layOff c 0 + (oLn2g c - 1)) ⟨by dsimp only; omega, by
    dsimp only
    rw [Nat.mul_comm]
    omega⟩
  rw [lastAt_wdn_end (Nat.pos_of_ne_zero hlayers) hmodel hff] at hcell
  exact Option.some_ne_none _ hcell.symm

/-- `alloc_blob` leaves the weights initialised exactly where the layers have no matrices of the
feed-forward block to fill. -/
theorem allocBlob_initialised_iff (a : Alloc) (s : TransState) :
    Initialised s.cfg (allocBlob a s).blob ↔
      s.cfg.nLayers = 0 ∨ s.cfg.dModel = 0 ∨ s.cfg.dFf = 0 := by
  have hzero (v : UInt16) : v = 0 ↔ v.toNat = 0 := ⟨fun h ↦ h ▸ rfl, fun h ↦ UInt16.toNat_inj.mp h⟩
  rw [hzero, hzero, hzero]
  constructor
  · intro h
    by_contra hno
    obtain ⟨hlayers, hmodel, hff⟩ : s.cfg.nLayers.toNat ≠ 0 ∧ s.cfg.dModel.toNat ≠ 0 ∧
        s.cfg.dFf.toNat ≠ 0 := by
      simpa only [not_or] using hno
    exact not_initialised hlayers hmodel hff _ h
  · intro hdim
    obtain ⟨hgains, hbiases⟩ := allocBlob_norms a s
    refine ⟨hgains, hbiases, fun t ht k hk ↦ ?_⟩
    obtain rfl | ht := List.mem_cons.mp ht
    · obtain ⟨i, hi, rfl⟩ := Tile.mem_cells_iff.mp hk
      exact lastAt_ends hi (Or.inl rfl)
    obtain hlayer | hhead := List.mem_append.mp ht
    · obtain ⟨l, hl, hmem⟩ := List.mem_flatMap.mp hlayer
      rw [List.mem_range] at hl
      obtain ⟨hlow, hlt, hmat⟩ := mem_layerMatrices hmem hk
      obtain ⟨h1g, h1b, hup, hdn, h2g, h2b, hsize, hmats⟩ := layer_offsets s.cfg
      have hff : s.cfg.dModel.toNat * s.cfg.dFf.toNat = 0 := by
        obtain hnone | hnone | hnone := hdim
        · omega
        · rw [hnone, Nat.zero_mul]
        · rw [hnone, Nat.mul_zero]
      obtain ⟨i, rfl⟩ := Nat.exists_eq_add_of_le hlow
      rw [lastAt_matrix hl (by omega) (by omega), if_pos (by omega)]
    · obtain rfl := List.mem_singleton.mp hhead
      obtain ⟨i, hi, rfl⟩ := Tile.mem_cells_iff.mp hk
      exact lastAt_ends hi (Or.inr rfl)

/-- The configuration `trans_init` starts from, with no blob yet. -/
def specState : TransState where
  cfg := specCfg
  budgets := initBudgets (2 ^ 26)
  wblob := 0
  wbytes := 0
  blob := fun _ ↦ 0
  rng := rngSeed
  ws := none

theorem allocBlob_specState_not_initialised :
    ¬ Initialised specState.cfg (allocBlob ⟨0x200000, fun _ ↦ 0⟩ specState).blob :=
  not_initialised (by decide) (by decide) (by decide) _

end NoOsKernel.Trans
