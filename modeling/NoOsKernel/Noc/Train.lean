import NoOsKernel.Lib.Saturate
import NoOsKernel.Lib.Memory
import NoOsKernel.Noc.Log2

/-!
# The loss of the bigram model

`train_run` of `kernel/noc/train.c`: passes over a batch that count its bigrams, each followed by a
halving of the whole table where many counts have reached their cap, and then the loss of the batch.
The loss of a byte takes the logarithm of the sum of its row, so the row must not have lost its last
count to the halving.
-/

set_option autoImplicit false
set_option relaxedAutoImplicit false

namespace NoOsKernel.Noc

open Lib

/-- `TRAIN_BATCH` -/
def trainBatch : ℕ := 4096

/-- `((u8)batch[i] << 8) | (u8)batch[i + 1]` -/
def bigram (batch : ℕ → Byte) (i : ℕ) : ℕ := (batch i).toNat * 256 + (batch (i + 1)).toNat

/-- The bigrams of a batch of `nb` bytes. -/
def bigrams (batch : ℕ → Byte) (nb : ℕ) : List ℕ := (List.range (nb - 1)).map (bigram batch)

/-- One pass: a weight below 255 counts up, and if more than 64 weights have come to 255, all weights
are halved. -/
def trainPass (batch : ℕ → Byte) (nb : ℕ) (w : ℕ → ℕ) : ℕ → ℕ :=
  let t := (bigrams batch nb).foldl (Counters.bump 255) ⟨w, 0⟩
  if 64 < t.full then fun i ↦ t.val i / 2 else t.val

/-- `passes` -/
def trainPasses (maxPasses nb : ℕ) : ℕ :=
  min (if maxPasses ≠ 0 then maxPasses else nb / 1024 + 1) 4

/-- The weights after the passes. -/
def trained (batch : ℕ → Byte) (nb passes : ℕ) (w : ℕ → ℕ) : ℕ → ℕ := (trainPass batch nb)^[passes] w

/-- `rowsum[r]` -/
def rowsum (w : ℕ → ℕ) (r : ℕ) : ℕ := ((List.range 256).map fun c ↦ w (r * 256 + c)).sum

/-- What the place `i` of the batch adds to `bits`; the subtraction is one of `u32`. -/
def scoreTerm (w : ℕ → ℕ) (batch : ℕ → Byte) (i : ℕ) : ℕ :=
  let cnt := w (bigram batch i)
  let rt := rowsum w (batch i).toNat
  if cnt ≠ 0 then (log2Mbit rt + 2 ^ 32 - log2Mbit cnt) % 2 ^ 32 else log2Mbit rt % 2 ^ 32

/-- The scoring loop takes logarithms of positive numbers only, no difference and no sum wraps
around. -/
structure Scores (w : ℕ → ℕ) (batch : ℕ → Byte) (nb : ℕ) : Prop where
  row_pos : ∀ i, i + 1 < nb → 1 ≤ rowsum w (batch i).toNat
  row_index : ∀ i, i + 1 < nb → log2Index (rowsum w (batch i).toNat) < 16
  cell_index : ∀ i, i + 1 < nb → w (bigram batch i) ≠ 0 → log2Index (w (bigram batch i)) < 16
  no_wrap : ∀ i, i + 1 < nb → w (bigram batch i) ≠ 0 →
    log2Mbit (w (bigram batch i)) ≤ log2Mbit (rowsum w (batch i).toNat)
  sum_lt : ((List.range (nb - 1)).map (scoreTerm w batch)).sum < 2 ^ 64

variable {batch : ℕ → Byte} {nb : ℕ} {w : ℕ → ℕ} {i r c : ℕ}

/-! ### Rows -/

theorem le_rowsum (hc : c < 256) : w (r * 256 + c) ≤ rowsum w r := by
  unfold rowsum
  exact List.single_le_sum (fun _ _ ↦ Nat.zero_le _) _
    (List.mem_map_of_mem (List.mem_range.mpr hc))

theorem bigram_le_rowsum (w : ℕ → ℕ) (batch : ℕ → Byte) (i : ℕ) :
    w (bigram batch i) ≤ rowsum w (batch i).toNat :=
  le_rowsum (batch (i + 1)).isLt

theorem rowsum_eq_zero_iff : rowsum w r = 0 ↔ ∀ c < 256, w (r * 256 + c) = 0 := by
  unfold rowsum
  rw [List.sum_eq_zero_iff]
  simp only [List.mem_map, List.mem_range, forall_exists_index, and_imp, forall_apply_eq_imp_iff₂]

theorem length_bigrams : (bigrams batch nb).length = nb - 1 := by
  rw [bigrams, List.length_map, List.length_range]

theorem count_bigram_pos (hi : i + 1 < nb) : 1 ≤ (bigrams batch nb).count (bigram batch i) :=
  List.count_pos_iff.mpr (List.mem_map_of_mem (List.mem_range.mpr (by omega)))

/-! ### Passes -/

/-- More than 64 weights come to their cap in a pass. -/
def Decays (batch : ℕ → Byte) (nb : ℕ) (w : ℕ → ℕ) : Prop :=
  64 < (Counters.reached 255 w (bigrams batch nb)).card

/-- The weights after a pass. -/
theorem trainPass_of_decays (hw : w i ≤ 255) (hdecays : Decays batch nb w) :
    trainPass batch nb w i = min 255 (w i + (bigrams batch nb).count i) / 2 := by
  have hfull : ((bigrams batch nb).foldl (Counters.bump 255) ⟨w, 0⟩).full =
      0 + (Counters.reached 255 w (bigrams batch nb)).card := Counters.full_foldl 0
  rw [Nat.zero_add] at hfull
  unfold trainPass
  unfold Decays at hdecays
  rw [hfull, if_pos hdecays, Counters.val_foldl hw]

theorem trainPass_of_not_decays (hw : w i ≤ 255) (hdecays : ¬ Decays batch nb w) :
    trainPass batch nb w i = min 255 (w i + (bigrams batch nb).count i) := by
  have hfull : ((bigrams batch nb).foldl (Counters.bump 255) ⟨w, 0⟩).full =
      0 + (Counters.reached 255 w (bigrams batch nb)).card := Counters.full_foldl 0
  rw [Nat.zero_add] at hfull
  unfold trainPass
  unfold Decays at hdecays
  rw [hfull, if_neg hdecays, Counters.val_foldl hw]

theorem trainPass_le (hw : ∀ i, w i ≤ 255) (i : ℕ) : trainPass batch nb w i ≤ 255 := by
  by_cases hdecays : Decays batch nb w
  · rw [trainPass_of_decays (hw i) hdecays]
    omega
  · rw [trainPass_of_not_decays (hw i) hdecays]
    omega

/-- A batch is too short for two decays in a row: 65 weights from 127 on would take 8320 bigrams. -/
theorem not_decays_trainPass (hw : ∀ i, w i ≤ 255) (hnb : nb ≤ trainBatch)
    (hdecays : Decays batch nb w) : ¬ Decays batch nb (trainPass batch nb w) := by
  have haway : ∀ i, trainPass batch nb w i + 128 ≤ 255 := by
    intro i
    rw [trainPass_of_decays (hw i) hdecays]
    omega
  have hcost := Counters.full_mul_le (l := bigrams batch nb) haway
  rw [length_bigrams] at hcost
  unfold Decays trainBatch at *
  omega

/-- After a pass without a decay, and after any second pass, a row of the batch has a weight. -/
theorem rowsum_pos_of_not_decays (hw : ∀ i, w i ≤ 255) (hdecays : ¬ Decays batch nb w)
    (hi : i + 1 < nb) : 1 ≤ trainPass batch nb w (bigram batch i) := by
  have hcount : 1 ≤ (bigrams batch nb).count (bigram batch i) := count_bigram_pos hi
  rw [trainPass_of_not_decays (hw _) hdecays]
  omega

theorem trainPass_pos (hw : ∀ i, w i ≤ 255) (hi : i + 1 < nb) (hcell : 1 ≤ w (bigram batch i)) :
    1 ≤ trainPass batch nb w (bigram batch i) := by
  have hcount : 1 ≤ (bigrams batch nb).count (bigram batch i) := count_bigram_pos hi
  by_cases hdecays : Decays batch nb w
  · rw [trainPass_of_decays (hw _) hdecays]
    omega
  · exact rowsum_pos_of_not_decays hw hdecays hi

theorem trainPass_twice_pos (hw : ∀ i, w i ≤ 255) (hnb : nb ≤ trainBatch) (hi : i + 1 < nb) :
    1 ≤ trainPass batch nb (trainPass batch nb w) (bigram batch i) := by
  by_cases hdecays : Decays batch nb w
  · exact rowsum_pos_of_not_decays (trainPass_le hw) (not_decays_trainPass hw hnb hdecays) hi
  · exact trainPass_pos (trainPass_le hw) hi (rowsum_pos_of_not_decays hw hdecays hi)

/-! ### The loss -/

/-- The batch has a byte whose row holds nothing but counts of one. -/
def HasFreshRow (batch : ℕ → Byte) (nb : ℕ) (w : ℕ → ℕ) : Prop :=
  ∃ i, i + 1 < nb ∧ ∀ c < 256, w ((batch i).toNat * 256 + c) +
    (bigrams batch nb).count ((batch i).toNat * 256 + c) ≤ 1

theorem rowsum_trained_pos_iff (hnb : nb ≤ trainBatch) (hw : ∀ i, w i ≤ 255) {passes : ℕ}
    (hpasses : passes ≠ 0) :
    (∀ i, i + 1 < nb → 1 ≤ rowsum (trained batch nb passes w) (batch i).toNat) ↔
      ¬ (passes = 1 ∧ Decays batch nb w ∧ HasFreshRow batch nb w) := by
  have hle : ∀ n i, trained batch nb n w i ≤ 255 := by
    intro n
    induction n with
    | zero => exact hw
    | succ n ih =>
      rw [trained, Function.iterate_succ_apply']
      exact trainPass_le ih
  obtain ⟨p, rfl⟩ : ∃ p, passes = p + 1 := ⟨passes - 1, by omega⟩
  have hlast : trained batch nb (p + 1) w = trainPass batch nb (trained batch nb p w) :=
    Function.iterate_succ_apply' ..
  cases p with
  | zero =>
    rw [hlast]
    change (∀ i, i + 1 < nb → 1 ≤ rowsum (trainPass batch nb w) (batch i).toNat) ↔ _
    by_cases hdecays : Decays batch nb w
    · simp only [Nat.zero_add, hdecays, true_and, HasFreshRow, not_exists, not_and,
        Nat.one_le_iff_ne_zero, Ne, rowsum_eq_zero_iff]
      refine forall₂_congr fun i _ ↦ not_congr (forall₂_congr fun c _ ↦ ?_)
      rw [trainPass_of_decays (hw _) hdecays]
      omega
    · refine iff_of_true (fun i hi ↦ ?_) fun hcond ↦ hdecays hcond.2.1
      exact (rowsum_pos_of_not_decays hw hdecays hi).trans (bigram_le_rowsum _ _ _)
  | succ p =>
    have hprev : trained batch nb (p + 1) w = trainPass batch nb (trained batch nb p w) :=
      Function.iterate_succ_apply' ..
    refine iff_of_true (fun i hi ↦ ?_) fun hcond ↦ by omega
    rw [hlast, hprev]
    exact (trainPass_twice_pos (hle p) hnb hi).trans (bigram_le_rowsum _ _ _)

theorem scoreTerm_lt (w : ℕ → ℕ) (batch : ℕ → Byte) (i : ℕ) : scoreTerm w batch i < 2 ^ 32 := by
  unfold scoreTerm
  dsimp only
  split_ifs <;> exact Nat.mod_lt _ (by decide)

theorem scores_of_row_pos (hnb : nb ≤ trainBatch)
    (hpos : ∀ i, i + 1 < nb → 1 ≤ rowsum w (batch i).toNat) : Scores w batch nb where
  row_pos := hpos
  row_index i hi := log2Index_lt (Nat.one_le_iff_ne_zero.mp (hpos i hi))
  cell_index _ _ hcell := log2Index_lt hcell
  no_wrap i _ hcell := log2Mbit_mono hcell (bigram_le_rowsum w batch i)
  sum_lt := by
    have hsum : ((List.range (nb - 1)).map (scoreTerm w batch)).sum ≤ (nb - 1) * 2 ^ 32 := by
      refine (List.sum_le_card_nsmul _ (2 ^ 32) fun x hx ↦ ?_).trans_eq ?_
      · obtain ⟨i, -, rfl⟩ := List.mem_map.mp hx
        exact (scoreTerm_lt w batch i).le
      · rw [List.length_map, List.length_range, smul_eq_mul]
    unfold trainBatch at hnb
    omega

/-- The loss of a batch is well defined exactly if there is a second pass, or no decay, or no byte of
the batch whose row the decay has emptied. -/
theorem scores_iff (w : ℕ → Byte) (batch : ℕ → Byte) (hnb : nb ≤ trainBatch) (maxPasses : ℕ) :
    Scores (trained batch nb (trainPasses maxPasses nb) fun i ↦ (w i).toNat) batch nb ↔
      ¬ (trainPasses maxPasses nb = 1 ∧ Decays batch nb (fun i ↦ (w i).toNat) ∧
        HasFreshRow batch nb fun i ↦ (w i).toNat) := by
  have hw : ∀ i, (w i).toNat ≤ 255 := fun i ↦ Nat.le_of_lt_succ (w i).isLt
  have hpasses : trainPasses maxPasses nb ≠ 0 := by
    unfold trainPasses
    split_ifs <;> omega
  rw [← rowsum_trained_pos_iff hnb hw hpasses]
  exact ⟨Scores.row_pos, scores_of_row_pos hnb⟩

theorem scores_iff_four_bytes :
    Scores (trained (fun _ ↦ 0x61) 4 (trainPasses 0 4) fun _ ↦ (0 : Byte).toNat) (fun _ ↦ 0x61) 4 ↔
      ¬ (trainPasses 0 4 = 1 ∧ Decays (fun _ ↦ 0x61) 4 (fun _ ↦ (0 : Byte).toNat) ∧
        HasFreshRow (fun _ ↦ 0x61) 4 fun _ ↦ (0 : Byte).toNat) :=
  scores_iff (fun _ ↦ 0) (fun _ ↦ 0x61) (by decide) 0

/-- The bytes 0, 1, 2 and so on. -/
def risingBatch (i : ℕ) : Byte := BitVec.ofNat 8 i

/-- The weights 254 of the first 65 bigrams of that batch, and nothing else. -/
def nearlyFull (i : ℕ) : Byte := if i % 257 = 1 ∧ i / 257 < 65 then 254 else 0

/-- With 68 of these bytes and one pass the row of the byte 65 is empty when its logarithm is taken. -/
theorem not_scores_nearlyFull :
    ¬ Scores (trained risingBatch 68 (trainPasses 1 68) fun i ↦ (nearlyFull i).toNat) risingBatch
      68 := by
  intro h
  have hrow := h.row_pos 65 (by decide)
  have hzero : rowsum (trained risingBatch 68 (trainPasses 1 68) fun i ↦ (nearlyFull i).toNat)
      (risingBatch 65).toNat = 0 := by decide +kernel
  omega

end NoOsKernel.Noc
