import NoOsKernel.Trans.Backward
import NoOsKernel.Trans.Effects

/-!
# The weight update

`upd_blob` as a step: every weight moves against the sign of its gradient, by at most 3, and one with
a largest gradient moves unless it is at the end of its range.
-/

set_option autoImplicit false
set_option relaxedAutoImplicit false

namespace NoOsKernel.Trans

open Lib Lib.Prog

/-! ### The step of a weight -/

/-- The step for a gradient under a shift. -/
def updStep (g : ℤ) (sh : ℕ) : ℤ :=
  let u := g >>> sh
  if 3 < u then 3 else if u < -3 then -3 else u

/-- A weight after a step. -/
def updWeight (w u : ℤ) : ℤ :=
  let v := w - u
  if 127 < v then 127 else if v < -128 then -128 else v

/-- The largest magnitude of `count` gradients, or `1`. -/
def topGrad (g : ℕ → ℤ) (count : ℕ) : ℤ :=
  (List.range count).foldl (fun m i ↦ if m < |g i| then |g i| else m) 1

/-- The shift leaves one or two units of a magnitude. -/
theorem updShift_spec {m : ℕ} (hm : 1 ≤ m) :
    1 ≤ m / 2 ^ updShift m ∧ m / 2 ^ updShift m ≤ 2 := by
  induction m using updShift.induct with
  | case1 m hlarge ih =>
    rw [updShift, if_pos hlarge, Nat.pow_succ', ← Nat.div_div_eq_div_mul]
    exact ih (by omega)
  | case2 m hsmall =>
    rw [updShift, if_neg hsmall, Nat.pow_zero, Nat.div_one]
    omega

theorem updStep_mem (g : ℤ) (sh : ℕ) : -3 ≤ updStep g sh ∧ updStep g sh ≤ 3 := by
  simp only [updStep]
  split_ifs <;> omega

theorem updStep_nonneg {g : ℤ} (hg : 0 ≤ g) (sh : ℕ) : 0 ≤ updStep g sh := by
  have hshift : 0 ≤ g >>> sh := by
    rw [Int.shiftRight_eq_div_pow]
    exact Int.ediv_nonneg hg (by positivity)
  simp only [updStep]
  split_ifs <;> omega

theorem updStep_neg {g : ℤ} (hg : g < 0) (sh : ℕ) : updStep g sh < 0 := by
  have hshift : g >>> sh < 0 := by
    rw [Int.shiftRight_eq_div_pow]
    exact Int.ediv_neg_of_neg_of_pos hg (by positivity)
  simp only [updStep]
  split_ifs <;> omega

theorem updStep_zero (sh : ℕ) : updStep 0 sh = 0 := by
  have hshift : (0 : ℤ) >>> sh = 0 := Int.zero_shiftRight sh
  simp only [updStep, hshift]
  decide

/-- A gradient of the magnitude the shift is made for takes a step. -/
theorem updStep_pos {g : ℤ} (hg : 0 < g) : 0 < updStep g (updShift g.toNat) := by
  obtain ⟨hlow, -⟩ := updShift_spec (m := g.toNat) (by omega)
  have hshift : 0 < g >>> updShift g.toNat := by
    rw [Int.shiftRight_eq_div_pow]
    have hcast : g = (g.toNat : ℤ) := by omega
    generalize g.toNat = n at hlow hcast
    rw [hcast]
    exact_mod_cast hlow
  simp only [updStep]
  split_ifs <;> omega

theorem updWeight_mem (w u : ℤ) : -128 ≤ updWeight w u ∧ updWeight w u ≤ 127 := by
  simp only [updWeight]
  split_ifs <;> omega

/-- A weight does not move further than the step, and in its direction. -/
theorem updWeight_near {w u : ℤ} (hlow : -128 ≤ w) (hhigh : w ≤ 127) :
    (0 ≤ u → w - u ≤ updWeight w u ∧ updWeight w u ≤ w) ∧
      (u ≤ 0 → w ≤ updWeight w u ∧ updWeight w u ≤ w - u) := by
  simp only [updWeight]
  split_ifs <;> omega

/-- A weight that has room moves. -/
theorem updWeight_moves {w u : ℤ} (hlow : -128 ≤ w) (hhigh : w ≤ 127) :
    (0 < u → w ≠ -128 → updWeight w u < w) ∧ (u < 0 → w ≠ 127 → w < updWeight w u) := by
  simp only [updWeight]
  split_ifs <;> omega

/-! ### The update of a tensor -/

/-- The update has moved weight `w` with gradient `g` to `w'`, where `top` says that no gradient has a
larger magnitude. -/
structure Descends (w g w' : ℤ) (top : Prop) : Prop where
  mem : -128 ≤ w' ∧ w' ≤ 127
  small : |w' - w| ≤ 3
  down : 0 < g → w' ≤ w
  up : g < 0 → w ≤ w'
  still : g = 0 → w' = w
  moves : top → (0 < g ∧ w ≠ -128 ∨ g < 0 ∧ w ≠ 127) → 1 ≤ |w' - w|

theorem topGrad_spec (g : ℕ → ℤ) (count : ℕ) : 1 ≤ topGrad g count ∧
    (∀ i < count, |g i| ≤ topGrad g count) ∧
      (topGrad g count = 1 ∨ ∃ i < count, topGrad g count = |g i|) :=
  foldl_max (fun i ↦ |g i|) count 1

/-- The largest magnitude, where there is a gradient. -/
theorem topGrad_eq {g : ℕ → ℤ} {count i : ℕ} (hi : i < count) (hne : g i ≠ 0)
    (htop : ∀ j < count, |g j| ≤ |g i|) : topGrad g count = |g i| := by
  obtain ⟨hone, hall, hsome⟩ := topGrad_spec g count
  have hpos : 1 ≤ |g i| := Int.one_le_abs hne
  refine le_antisymm ?_ (hall i hi)
  obtain htop' | ⟨j, hj, htop'⟩ := hsome
  · rw [htop']
    exact hpos
  · rw [htop']
    exact htop j hj

/-- One weight under the step of its gradient. -/
theorem descends_updWeight {w : ℤ} (hlow : -128 ≤ w) (hhigh : w ≤ 127) {g : ℕ → ℤ} {count i : ℕ}
    (hi : i < count) : Descends w (g i)
      (updWeight w (updStep (g i) (updShift (topGrad g count).toNat)))
      (∀ j < count, |g j| ≤ |g i|) := by
  obtain ⟨hdown, hup⟩ := updWeight_near (u := updStep (g i) (updShift (topGrad g count).toNat))
    hlow hhigh
  obtain ⟨hmoves, hmoves'⟩ :=
    updWeight_moves (u := updStep (g i) (updShift (topGrad g count).toNat)) hlow hhigh
  have hsmall := updStep_mem (g i) (updShift (topGrad g count).toNat)
  refine ⟨updWeight_mem _ _, ?_, fun hg ↦ ?_, fun hg ↦ ?_, fun hg ↦ ?_, fun htop hroom ↦ ?_⟩
  · rw [abs_le]
    obtain hsign | hsign := le_total 0 (updStep (g i) (updShift (topGrad g count).toNat))
    · have h := hdown hsign
      omega
    · have h := hup hsign
      omega
  · exact (hdown (updStep_nonneg hg.le _)).2
  · exact (hup (updStep_neg hg _).le).1
  · rw [hg, updStep_zero, updWeight]
    split_ifs <;> omega
  · obtain ⟨hg, hw⟩ | ⟨hg, hw⟩ := hroom
    · have htop' : topGrad g count = g i := (topGrad_eq hi hg.ne' htop).trans (abs_of_pos hg)
      rw [htop'] at hmoves ⊢
      have h := hmoves (updStep_pos hg) hw
      exact Int.one_le_abs (by omega)
    · have h := hmoves' (updStep_neg hg _) hw
      exact Int.one_le_abs (by omega)

/-- What `upd_blob` leaves in its weights. -/
theorem updBlob_stored {b : TrainBuf} (hb : b ≠ .inr .wblob) (woff goff count : ℕ)
    (m : Words TrainBuf ℤ) :
    Stored (.inr .wblob) (woff + ·) (fun i ↦ updWeight (m (.inr .wblob) (woff + i))
      (updStep (m b (goff + i)) (updShift (topGrad (fun j ↦ m b (goff + j)) count).toNat))) count m
      (updBlob woff b goff count m).words := by
  obtain ⟨hwords, hresult⟩ : (fold count (1 : ℤ) (fun i mx ↦ (do
        let a ← read b (goff + i)
        pure (if mx < |a| then |a| else mx) : Tr ℤ)) m).words = m ∧ _ :=
    fold_reads (fun mx i ↦ if mx < |m b (goff + i)| then |m b (goff + i)| else mx)
      fun _ _ _ ↦ ⟨rfl, rfl⟩
  rw [updBlob, bind_words, hwords, hresult]
  refine loop_stores (woff + ·) _ (fun _ _ _ hj heq ↦ hj.ne (Nat.add_left_cancel heq)) ?_
  intro i hi m' hm'
  have hgrad : m' b (goff + i) = m b (goff + i) := by rw [hm'.other hb]
  have hweight : m' (.inr .wblob) (woff + i) = m (.inr .wblob) (woff + i) :=
    hm'.elsewhere _ _ fun j hj heq ↦ hj.ne (Nat.add_left_cancel heq.2).symm
  simp only [bind_words, read_words, read_result, write_words, hgrad, hweight]
  rfl

/-- `upd_blob` is a bounded descent step; the magnitudes of its gradients are those of an `i64`. -/
theorem updBlob_descends {b : TrainBuf} (hb : b ≠ .inr .wblob) (woff goff count : ℕ)
    {m : Words TrainBuf ℤ} (hm : Typed m) {i : ℕ} (hi : i < count) :
    Descends (m (.inr .wblob) (woff + i)) (m b (goff + i))
      ((updBlob woff b goff count m).words (.inr .wblob) (woff + i))
      (∀ j < count, |m b (goff + j)| ≤ |m b (goff + i)|) := by
  have hw := hm (.inr .wblob) (woff + i)
  have hwidth : width (.inr .wblob) = 8 := rfl
  rw [hwidth] at hw
  rw [(updBlob_stored hb woff goff count m).at_index i hi]
  exact descends_updWeight (g := fun j ↦ m b (goff + j)) (by omega) (by omega) hi

/-- Three weights, one of them the least, with gradients of 5, -70 and 0. -/
def threeWeights : Words TrainBuf ℤ := fun b i ↦
  if b = .inr .wgrad then [5, -70, 0].getD i 0 else [100, -128, 127].getD i 0

theorem typed_threeWeights : Typed threeWeights := by
  have hgetD : ∀ l ∈ [[5, -70, 0], [100, -128, 127]], ∀ k,
      -128 ≤ (l.getD k 0 : ℤ) ∧ (l.getD k 0 : ℤ) < 128 := by
    intro l hl k
    have hall : ∀ l ∈ [[5, -70, 0], [100, -128, 127]], ∀ v ∈ l, -128 ≤ (v : ℤ) ∧ v < 128 := by
      decide
    rw [List.getD_eq_getElem?_getD]
    cases hk : l[k]? with
    | none => decide
    | some v => exact hall l hl v (List.mem_of_getElem? hk)
  intro b k
  have hword : -128 ≤ threeWeights b k ∧ threeWeights b k < 128 := by
    rw [threeWeights]
    split_ifs
    · exact hgetD _ (by decide) k
    · exact hgetD _ (by decide) k
  have hwidth : (2 : ℤ) ^ 7 ≤ 2 ^ (width b - 1) := by
    cases b with
    | inl b => exact (by decide : (2 : ℤ) ^ 7 ≤ 2 ^ 15)
    | inr b => cases b <;> decide
  omega

theorem updBlob_descends_three :
    Descends 100 5 ((updBlob 0 (.inr .wgrad) 0 3 threeWeights).words (.inr .wblob) 0)
        (∀ j < 3, |threeWeights (.inr .wgrad) (0 + j)| ≤ |5|) ∧
      Descends (-128) (-70) ((updBlob 0 (.inr .wgrad) 0 3 threeWeights).words (.inr .wblob) 1)
        (∀ j < 3, |threeWeights (.inr .wgrad) (0 + j)| ≤ |-70|) :=
  ⟨updBlob_descends (b := .inr .wgrad) (by decide) 0 0 3 typed_threeWeights (i := 0) (by decide),
    updBlob_descends (b := .inr .wgrad) (by decide) 0 0 3 typed_threeWeights (i := 1) (by decide)⟩

end NoOsKernel.Trans
