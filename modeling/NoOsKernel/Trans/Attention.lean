import NoOsKernel.Trans.Effects
import NoOsKernel.Trans.Workspace

/-!
# The attention step

What `attention` leaves in the blocks `S` and `A` of a layer, as a function of the words it finds in
`Q`, `K` and `V`: the scores of a row, narrowed as the source narrows them, the exponentials of their
distances to the largest one, the shares of these in 4096, and the sums of the values by these shares.
-/

set_option autoImplicit false
set_option relaxedAutoImplicit false

namespace NoOsKernel.Trans

open Lib Lib.Prog

/-! ### The functions of a row -/

section Row

variable (p : Dims) (lay : ℕ) (m : Words WsBuf ℤ) (hd i : ℕ)

/-- The width of a head. -/
def Dims.dh : ℕ := p.D / p.H

/-- The scaled product of the positions `i` and `j`, before it is narrowed. -/
def exactScore (j : ℕ) : ℤ :=
  (∑ k ∈ Finset.range p.dh, m .fwdLay (lay + (i * p.D + (hd * p.dh + k))) *
    m .fwdLay (lay + (p.offK + (j * p.D + (hd * p.dh + k))))) >>> 11

/-- A score in an `i32`, clamped at the upper end only. -/
def narrow32 (x : ℤ) : ℤ := if 32767 < toI32 x then 32767 else toI32 x

/-- The score a maximum is taken of. -/
def wideScore (j : ℕ) : ℤ := if i < j then -32768 else narrow32 (exactScore p lay m hd i j)

/-- The largest score, at least that of the mask. -/
def topScore : ℤ :=
  (List.range p.C).foldl
    (fun mx j ↦ if mx < wideScore p lay m hd i j then wideScore p lay m hd i j else mx) (-32768)

/-- The exponential of a score, which has gone through an `i16` by then. -/
def level (j : ℕ) : ℤ := expOf (toI16 (wideScore p lay m hd i j) - topScore p lay m hd i)

def levelSum : ℤ := ∑ j ∈ Finset.range p.C, level p lay m hd i j

/-- The share of a position, in 4096. -/
def share (j : ℕ) : ℤ :=
  toI16 (toI16 (level p lay m hd i j) * 4096 % 2 ^ 32 /
    ((if levelSum p lay m hd i < 1 then 1 else levelSum p lay m hd i) % 2 ^ 32))

/-- Coordinate `o` of what the head gives for position `i`. -/
def attended (o : ℕ) : ℤ :=
  toI16 ((∑ j ∈ Finset.range p.C, share p lay m hd i j *
    m .fwdLay (lay + (p.offV + (j * p.D + (hd * p.dh + o))))) >>> 12)

end Row

/-! ### The pieces of `attendRow` -/

section Pieces

variable (p : Dims) (lay hd i : ℕ)

/-- The scores, into `S`; returns the largest. -/
def rowScores : Ws ℤ :=
  fold p.C (-32768 : ℤ) fun j mx ↦ do
    let s ← score p lay hd i j
    write .fwdLay (p.at lay hd i j) (toI16 s)
    pure (if mx < s then s else mx)

/-- The exponentials, over the scores; returns their sum. -/
def rowLevels (mx : ℤ) : Ws ℤ :=
  fold p.C (0 : ℤ) fun j esum ↦ do
    let v ← read .fwdLay (p.at lay hd i j)
    let s := v - mx
    let e : ℤ := if s ≤ -2048 then 0 else if 0 ≤ s then 4096 else expmTab (-s).toNat
    write .fwdLay (p.at lay hd i j) (toI16 e)
    pure (esum + e)

/-- The shares, over the exponentials. -/
def rowShares (esum : ℤ) : Ws Unit :=
  loop p.C fun j ↦ do
    let e ← read .fwdLay (p.at lay hd i j)
    write .fwdLay (p.at lay hd i j) (toI16 (e * 4096 % 2 ^ 32 / (esum % 2 ^ 32)))

/-- The sums of the values. -/
def rowOut : Ws Unit :=
  loop (p.D / p.H) fun o ↦ do
    let acc ← fold p.C (0 : ℤ) fun j acc ↦ do
      let s ← read .fwdLay (p.at lay hd i j)
      let v ← read .fwdLay (lay + (p.offV + (j * p.D + (hd * (p.D / p.H) + o))))
      pure (acc + s * v)
    write .fwdLay (lay + (p.offA + (i * p.D + (hd * (p.D / p.H) + o)))) (toI16 (acc >>> 12))

theorem attendRow_eq : attendRow p lay hd i = rowScores p lay hd i >>= fun mx ↦
    rowLevels p lay hd i mx >>= fun esum ↦
      rowShares p lay hd i (if esum < 1 then 1 else esum) >>= fun _ ↦ rowOut p lay hd i :=
  rfl

end Pieces

variable {p : Dims} {lay hd i : ℕ} {m m' : Words WsBuf ℤ}

/-! ### Where things lie -/

/-- A column of a head is one of the model. -/
theorem dh_col_lt {k : ℕ} (hhd : hd < p.H) (hk : k < p.dh) : hd * p.dh + k < p.D :=
  head_col_lt hhd hk

/-- A word of `Q`, `K` or `V`, by its place in the block of the layer. -/
theorem lt_offS_of_col {off r k : ℕ} (hoff : off ≤ p.offV) (hr : r < p.C) (hk : k < p.D) :
    off + (r * p.D + k) < p.offS := by
  have hrow : r * p.D + k < p.C * p.D := row_add_lt hr hk
  rw [Dims.offS]
  omega

theorem offK_le : p.offK ≤ p.offV := Nat.mul_le_mul_left _ (by omega)

theorem at_ne_at {j j' : ℕ} (hne : j ≠ j') : p.at lay hd i j ≠ p.at lay hd i j' := by
  intro heq
  rw [Dims.at, Dims.at] at heq
  omega

/-- `S` lies behind `Q`, `K` and `V`. -/
theorem ne_at {y j : ℕ} (hy : y < p.offS) : lay + y ≠ p.at lay hd i j := by
  rw [Dims.at]
  omega

/-- `m'` has the words of `m` in `Q`, `K` and `V`. -/
def SameQkv (p : Dims) (lay : ℕ) (m m' : Words WsBuf ℤ) : Prop :=
  ∀ y < p.offS, m' .fwdLay (lay + y) = m .fwdLay (lay + y)

theorem SameQkv.trans {m'' : Words WsBuf ℤ} (h : SameQkv p lay m m') (h' : SameQkv p lay m' m'') :
    SameQkv p lay m m'' :=
  fun y hy ↦ (h' y hy).trans (h y hy)

/-- Storing in a row of `S` leaves `Q`, `K` and `V` alone. -/
theorem sameQkv_of_stored {val : ℕ → ℤ} {n : ℕ} (h : Stored .fwdLay (p.at lay hd i) val n m m') :
    SameQkv p lay m m' :=
  fun _ hy ↦ h.elsewhere _ _ fun _ _ heq ↦ ne_at hy heq.2

theorem exactScore_congr (hsame : SameQkv p lay m m') {j : ℕ} (hhd : hd < p.H) (hi : i < p.C)
    (hj : j < p.C) : exactScore p lay m' hd i j = exactScore p lay m hd i j := by
  unfold exactScore
  refine congrArg (fun acc : ℤ ↦ acc >>> 11) (Finset.sum_congr rfl fun k hk ↦ ?_)
  have hcol : hd * p.dh + k < p.D := head_col_lt hhd (Finset.mem_range.mp hk)
  have hq := lt_offS_of_col (Nat.zero_le p.offV) hi hcol
  rw [Nat.zero_add] at hq
  rw [hsame _ hq, hsame _ (lt_offS_of_col offK_le hj hcol)]

theorem wideScore_congr (hsame : SameQkv p lay m m') {j : ℕ} (hhd : hd < p.H) (hi : i < p.C)
    (hj : j < p.C) : wideScore p lay m' hd i j = wideScore p lay m hd i j := by
  rw [wideScore, wideScore, exactScore_congr hsame hhd hi hj]

/-- `score` computes the score. -/
theorem score_reads (p : Dims) (lay hd i j : ℕ) (m : Words WsBuf ℤ) :
    (score p lay hd i j m).words = m ∧ (score p lay hd i j m).result = wideScore p lay m hd i j := by
  unfold score wideScore
  split_ifs with hmask
  · exact ⟨rfl, rfl⟩
  · obtain ⟨hwords, hresult⟩ : (fold (p.D / p.H) (0 : ℤ) (fun k acc ↦ (do
          let q ← read .fwdLay (lay + (i * p.D + (hd * (p.D / p.H) + k)))
          let kv ← read .fwdLay (lay + (p.offK + (j * p.D + (hd * (p.D / p.H) + k))))
          pure (acc + q * kv) : Ws ℤ)) m).words = m ∧ _ :=
      fold_sum (fun k ↦ m .fwdLay (lay + (i * p.D + (hd * (p.D / p.H) + k))) *
        m .fwdLay (lay + (p.offK + (j * p.D + (hd * (p.D / p.H) + k))))) fun _ _ _ ↦ ⟨rfl, rfl⟩
    constructor
    · simp only [bind_words, pure_words, hwords]
    · simp only [bind_result, pure_result, hresult, zero_add]
      exact congrArg narrow32 (Int.shiftRight_add' _ 8 3).symm

/-! ### A row -/

/-- `rowScores` stores the scores and returns the largest one. -/
theorem rowScores_stored (lay : ℕ) (hhd : hd < p.H) (hi : i < p.C) (m : Words WsBuf ℤ) :
    Stored .fwdLay (p.at lay hd i) (fun j ↦ toI16 (wideScore p lay m hd i j)) p.C m
        (rowScores p lay hd i m).words ∧
      (rowScores p lay hd i m).result = topScore p lay m hd i := by
  refine fold_stores (p.at lay hd i) (fun j ↦ toI16 (wideScore p lay m hd i j)) _
    (fun _ _ _ hj ↦ at_ne_at hj.ne) fun j hj m' hm' ↦ ?_
  obtain ⟨hwords, hresult⟩ := score_reads p lay hd i j m'
  rw [wideScore_congr (sameQkv_of_stored hm') hhd hi hj] at hresult
  simp only [bind_words, bind_result, pure_words, pure_result, write_words, hwords, hresult]
  exact ⟨trivial, trivial⟩

theorem rowLevels_stored (p : Dims) (lay hd i : ℕ) (mx : ℤ) (m : Words WsBuf ℤ) :
    Stored .fwdLay (p.at lay hd i)
        (fun j ↦ toI16 (expOf (m .fwdLay (p.at lay hd i j) - mx))) p.C m
        (rowLevels p lay hd i mx m).words ∧
      (rowLevels p lay hd i mx m).result =
        ∑ j ∈ Finset.range p.C, expOf (m .fwdLay (p.at lay hd i j) - mx) := by
  have h : Stored .fwdLay (p.at lay hd i)
        (fun j ↦ toI16 (expOf (m .fwdLay (p.at lay hd i j) - mx))) p.C m
        (rowLevels p lay hd i mx m).words ∧
      (rowLevels p lay hd i mx m).result =
        (List.range p.C).foldl (fun acc j ↦ acc + expOf (m .fwdLay (p.at lay hd i j) - mx)) 0 := by
    refine fold_stores (p.at lay hd i) _ _ (fun _ _ _ hj ↦ at_ne_at hj.ne) fun j hj m' hm' ↦ ?_
    have hread : m' .fwdLay (p.at lay hd i j) = m .fwdLay (p.at lay hd i j) :=
      hm'.elsewhere _ _ fun j' hj' heq ↦ at_ne_at hj'.ne heq.2.symm
    rw [← hread]
    simp only [bind_words, bind_result, pure_words, pure_result, read_words, read_result, write_words,
      expOf]
    exact ⟨trivial, trivial⟩
  exact ⟨h.1, h.2.trans ((foldl_add ..).trans (zero_add _))⟩

theorem rowShares_stored (p : Dims) (lay hd i : ℕ) (esum : ℤ) (m : Words WsBuf ℤ) :
    Stored .fwdLay (p.at lay hd i)
      (fun j ↦ toI16 (m .fwdLay (p.at lay hd i j) * 4096 % 2 ^ 32 / (esum % 2 ^ 32))) p.C m
      (rowShares p lay hd i esum m).words := by
  refine loop_stores (p.at lay hd i) _ (fun _ _ _ hj ↦ at_ne_at hj.ne) fun j hj m' hm' ↦ ?_
  have hread : m' .fwdLay (p.at lay hd i j) = m .fwdLay (p.at lay hd i j) :=
    hm'.elsewhere _ _ fun j' hj' heq ↦ at_ne_at hj'.ne heq.2.symm
  rw [← hread]
  simp only [bind_words, read_words, read_result, write_words]

/-- The place of coordinate `o` of the head in row `i` of `A`. -/
def Dims.outAt (p : Dims) (lay hd i o : ℕ) : ℕ := lay + (p.offA + (i * p.D + (hd * p.dh + o)))

theorem at_ne_outAt {i' o hd' j : ℕ} (hhd : hd < p.H) (hi : i < p.C) (hj : j < p.C) :
    p.at lay hd i j ≠ p.outAt lay hd' i' o := by
  have hrow : hd * p.C + i < p.H * p.C := row_add_lt hhd hi
  have hcell : (hd * p.C + i) * p.C + j < p.H * p.C * p.C := row_add_lt hrow hj
  rw [Nat.add_mul, Nat.add_assoc] at hcell
  rw [Dims.at, Dims.outAt, Dims.offA]
  omega

theorem ne_outAt {y o : ℕ} (hy : y < p.offS) : lay + y ≠ p.outAt lay hd i o := by
  rw [Dims.outAt, Dims.offA]
  omega

theorem rowOut_stored (lay : ℕ) (hhd : hd < p.H) (hi : i < p.C) (m : Words WsBuf ℤ) :
    Stored .fwdLay (p.outAt lay hd i) (fun o ↦ toI16 ((∑ j ∈ Finset.range p.C,
        m .fwdLay (p.at lay hd i j) *
          m .fwdLay (lay + (p.offV + (j * p.D + (hd * p.dh + o))))) >>> 12)) p.dh m
      (rowOut p lay hd i m).words := by
  refine loop_stores (p.outAt lay hd i) _ (fun a _ b hb heq ↦ ?_) fun o ho m' hm' ↦ ?_
  · rw [Dims.outAt, Dims.outAt] at heq
    omega
  · obtain ⟨hwords, hresult⟩ : (fold p.C (0 : ℤ) (fun j acc ↦ (do
          let s ← read .fwdLay (p.at lay hd i j)
          let v ← read .fwdLay (lay + (p.offV + (j * p.D + (hd * (p.D / p.H) + o))))
          pure (acc + s * v) : Ws ℤ)) m').words = m' ∧ _ :=
      fold_sum (fun j ↦ m' .fwdLay (p.at lay hd i j) *
        m' .fwdLay (lay + (p.offV + (j * p.D + (hd * (p.D / p.H) + o))))) fun _ _ _ ↦ ⟨rfl, rfl⟩
    have hsum : ∑ j ∈ Finset.range p.C, m' .fwdLay (p.at lay hd i j) *
          m' .fwdLay (lay + (p.offV + (j * p.D + (hd * (p.D / p.H) + o)))) =
        ∑ j ∈ Finset.range p.C, m .fwdLay (p.at lay hd i j) *
          m .fwdLay (lay + (p.offV + (j * p.D + (hd * p.dh + o)))) := by
      refine Finset.sum_congr rfl fun j hj ↦ ?_
      rw [Finset.mem_range] at hj
      have hcol : hd * p.dh + o < p.D := head_col_lt hhd ho
      rw [hm'.elsewhere _ _ fun o' _ heq ↦ at_ne_outAt hhd hi hj heq.2,
        hm'.elsewhere .fwdLay (lay + (p.offV + (j * p.D + (hd * (p.D / p.H) + o))))
          fun o' _ heq ↦ ne_outAt (lt_offS_of_col (le_refl _) hj hcol) heq.2]
      rfl
    simp only [bind_words, write_words, hwords, hresult, zero_add, hsum]
    rfl

/-! ### All rows -/

section Rows

variable (p lay)

/-- The row of `hd` and `i` is done, from the words of `m` in `Q`, `K` and `V`. -/
structure RowDone (m : Words WsBuf ℤ) (hd i : ℕ) (m' : Words WsBuf ℤ) : Prop where
  shares : ∀ j < p.C, m' .fwdLay (p.at lay hd i j) = share p lay m hd i j
  out : ∀ o < p.dh, m' .fwdLay (p.outAt lay hd i o) = attended p lay m hd i o

end Rows

theorem topScore_congr (hsame : SameQkv p lay m m') (hhd : hd < p.H) (hi : i < p.C) :
    topScore p lay m' hd i = topScore p lay m hd i := by
  unfold topScore
  refine List.foldl_ext _ _ _ fun mx j hj ↦ ?_
  rw [wideScore_congr hsame hhd hi (List.mem_range.mp hj)]

theorem level_congr (hsame : SameQkv p lay m m') {j : ℕ} (hhd : hd < p.H) (hi : i < p.C)
    (hj : j < p.C) : level p lay m' hd i j = level p lay m hd i j := by
  rw [level, level, wideScore_congr hsame hhd hi hj, topScore_congr hsame hhd hi]

theorem share_congr (hsame : SameQkv p lay m m') {j : ℕ} (hhd : hd < p.H) (hi : i < p.C)
    (hj : j < p.C) : share p lay m' hd i j = share p lay m hd i j := by
  have hsum : levelSum p lay m' hd i = levelSum p lay m hd i :=
    Finset.sum_congr rfl fun j hj ↦ level_congr hsame hhd hi (Finset.mem_range.mp hj)
  rw [share, share, level_congr hsame hhd hi hj, hsum]

theorem attended_congr (hsame : SameQkv p lay m m') {o : ℕ} (hhd : hd < p.H) (hi : i < p.C)
    (ho : o < p.dh) : attended p lay m' hd i o = attended p lay m hd i o := by
  unfold attended
  refine congrArg (fun acc : ℤ ↦ toI16 (acc >>> 12)) (Finset.sum_congr rfl fun j hj ↦ ?_)
  have hj := Finset.mem_range.mp hj
  rw [share_congr hsame hhd hi hj, hsame _ (lt_offS_of_col (le_refl _) hj (dh_col_lt hhd ho))]

theorem RowDone.congr (hsame : SameQkv p lay m m') {m'' : Words WsBuf ℤ} (hhd : hd < p.H)
    (hi : i < p.C) (h : RowDone p lay m' hd i m'') : RowDone p lay m hd i m'' where
  shares j hj := (h.shares j hj).trans (share_congr hsame hhd hi hj)
  out o ho := (h.out o ho).trans (attended_congr hsame hhd hi ho)

/-- One row: what it stores, and that it stores in its own places only. -/
theorem attendRow_stored (lay : ℕ) (hhd : hd < p.H) (hi : i < p.C) (m : Words WsBuf ℤ) :
    RowDone p lay m hd i (attendRow p lay hd i m).words ∧
      ∀ b x, (∀ j < p.C, ¬ (b = .fwdLay ∧ x = p.at lay hd i j)) →
        (∀ o < p.dh, ¬ (b = .fwdLay ∧ x = p.outAt lay hd i o)) →
        (attendRow p lay hd i m).words b x = m b x := by
  obtain ⟨hscores, htop⟩ := rowScores_stored lay hhd hi m
  rw [attendRow_eq, bind_words, htop]
  generalize (rowScores p lay hd i m).words = m₁ at hscores ⊢
  obtain ⟨hlevels, hsum⟩ := rowLevels_stored p lay hd i (topScore p lay m hd i) m₁
  rw [bind_words, hsum]
  generalize (rowLevels p lay hd i (topScore p lay m hd i) m₁).words = m₂ at hlevels ⊢
  have hsum' : ∑ j ∈ Finset.range p.C, expOf (m₁ .fwdLay (p.at lay hd i j) - topScore p lay m hd i) =
      levelSum p lay m hd i :=
    Finset.sum_congr rfl fun j hj ↦ by rw [hscores.at_index j (Finset.mem_range.mp hj), level]
  rw [hsum', bind_words]
  generalize hesum : (if levelSum p lay m hd i < 1 then 1 else levelSum p lay m hd i) = esum
  have hshares := rowShares_stored p lay hd i esum m₂
  generalize (rowShares p lay hd i esum m₂).words = m₃ at hshares ⊢
  have hout := rowOut_stored lay hhd hi m₃
  generalize (rowOut p lay hd i m₃).words = m₄ at hout ⊢
  have hrow (j : ℕ) (hj : j < p.C) : m₃ .fwdLay (p.at lay hd i j) = share p lay m hd i j := by
    rw [hshares.at_index j hj, hlevels.at_index j hj, hscores.at_index j hj, ← hesum]
    rfl
  have hsame : SameQkv p lay m m₃ :=
    (sameQkv_of_stored hscores).trans ((sameQkv_of_stored hlevels).trans (sameQkv_of_stored hshares))
  refine ⟨⟨fun j hj ↦ ?_, fun o ho ↦ ?_⟩, fun b x hS hA ↦ ?_⟩
  · rw [hout.elsewhere _ _ fun o _ heq ↦ at_ne_outAt hhd hi hj heq.2]
    exact hrow j hj
  · rw [hout.at_index o ho]
    refine congrArg (fun acc : ℤ ↦ toI16 (acc >>> 12)) (Finset.sum_congr rfl fun j hj ↦ ?_)
    have hj := Finset.mem_range.mp hj
    rw [hrow j hj, hsame _ (lt_offS_of_col (le_refl _) hj (dh_col_lt hhd ho))]
  · rw [hout.elsewhere b x hA, hshares.elsewhere b x hS, hlevels.elsewhere b x hS,
      hscores.elsewhere b x hS]

theorem row_inj {n a b a' b' : ℕ} (hb : b < n) (hb' : b' < n) (heq : a * n + b = a' * n + b') :
    a = a' ∧ b = b' := by
  have hdiv (c d : ℕ) (hd : d < n) : (c * n + d) / n = c := by
    rw [Nat.mul_comm, Nat.mul_add_div (by omega), Nat.div_eq_of_lt hd, Nat.add_zero]
  have ha : a = a' := by rw [← hdiv a b hb, heq, hdiv a' b' hb']
  exact ⟨ha, by subst ha; omega⟩

/-- The rows of two heads or positions are apart. -/
theorem RowDone.other {hd' i' : ℕ} (hhd : hd < p.H) (hi : i < p.C) (hhd' : hd' < p.H)
    (hi' : i' < p.C) (hne : ¬ (hd' = hd ∧ i' = i)) (h : RowDone p lay m hd' i' m') :
    RowDone p lay m hd' i' (attendRow p lay hd i m').words := by
  have helse := (attendRow_stored lay hhd hi m').2
  constructor
  · intro j hj
    rw [helse _ _ (fun j' hj' heq ↦ ?_) fun o _ heq ↦ at_ne_outAt hhd' hi' hj heq.2]
    · exact h.shares j hj
    · have heq := heq.2
      rw [Dims.at, Dims.at, ← Nat.add_assoc (hd' * p.C * p.C), ← Nat.add_assoc (hd * p.C * p.C),
        ← Nat.add_mul, ← Nat.add_mul] at heq
      have hrow := (row_inj hj hj' (Nat.add_left_cancel (Nat.add_left_cancel heq))).1
      exact hne (row_inj hi' hi hrow)
  · intro o ho
    rw [helse _ _ (fun j hj heq ↦ at_ne_outAt hhd hi hj heq.2.symm) fun o' ho' heq ↦ ?_]
    · exact h.out o ho
    · have heq := heq.2
      rw [Dims.outAt, Dims.outAt] at heq
      obtain ⟨hpos, hcol⟩ := row_inj (dh_col_lt hhd' ho) (dh_col_lt hhd ho')
        (Nat.add_left_cancel (Nat.add_left_cancel heq))
      exact hne ⟨(row_inj ho ho' hcol).1, hpos⟩

theorem SameQkv.attendRow (hhd : hd < p.H) (hi : i < p.C) (h : SameQkv p lay m m') :
    SameQkv p lay m (attendRow p lay hd i m').words := by
  refine h.trans fun y hy ↦ ?_
  exact (attendRow_stored lay hhd hi m').2 _ _ (fun _ _ heq ↦ ne_at hy heq.2)
    fun _ _ heq ↦ ne_outAt hy heq.2

/-- The attention step does every row of every head, and leaves `Q`, `K` and `V` alone. -/
theorem attention_rows (p : Dims) (lay : ℕ) (m : Words WsBuf ℤ) :
    SameQkv p lay m (attention p lay m).words ∧
      ∀ hd < p.H, ∀ i < p.C, RowDone p lay m hd i (attention p lay m).words := by
  have hhead (hd : ℕ) (hhd : hd < p.H) :
      Triple (fun m' ↦ SameQkv p lay m m' ∧ ∀ hd' < hd, ∀ i < p.C, RowDone p lay m hd' i m')
        (loop p.C fun i ↦ attendRow p lay hd i)
        fun _ m' ↦ SameQkv p lay m m' ∧ ∀ hd' < hd + 1, ∀ i < p.C, RowDone p lay m hd' i m' := by
    have hrows : Triple
        (fun m' ↦ SameQkv p lay m m' ∧ (∀ hd' < hd, ∀ i < p.C, RowDone p lay m hd' i m') ∧
          ∀ i < 0, RowDone p lay m hd i m')
        (loop p.C fun i ↦ attendRow p lay hd i)
        fun _ m' ↦ SameQkv p lay m m' ∧ (∀ hd' < hd, ∀ i < p.C, RowDone p lay m hd' i m') ∧
          ∀ i < p.C, RowDone p lay m hd i m' := by
      refine triple_loop (fun k m' ↦ SameQkv p lay m m' ∧
        (∀ hd' < hd, ∀ i < p.C, RowDone p lay m hd' i m') ∧
          ∀ i < k, RowDone p lay m hd i m') ?_
      rintro k hk m' ⟨hsame, hheads, hdone⟩
      refine ⟨hsame.attendRow hhd hk, fun hd' hhd' i hi ↦ ?_, fun i hi ↦ ?_⟩
      · exact (hheads hd' hhd' i hi).other hhd hk (hhd'.trans hhd) hi fun heq ↦ hhd'.ne heq.1
      · obtain hlt | rfl := Nat.lt_succ_iff_lt_or_eq.mp hi
        · exact (hdone i hlt).other hhd hk hhd (hlt.trans hk) fun heq ↦ hlt.ne heq.2
        · exact (attendRow_stored lay hhd hk m').1.congr hsame hhd hk
    refine hrows.conseq (fun m' hm' ↦ ⟨hm'.1, hm'.2, fun _ hi ↦ absurd hi (Nat.not_lt_zero _)⟩) ?_
    rintro _ m' ⟨hsame, hheads, hdone⟩
    refine ⟨hsame, fun hd' hhd' ↦ ?_⟩
    obtain hlt | rfl := Nat.lt_succ_iff_lt_or_eq.mp hhd'
    · exact hheads hd' hlt
    · exact hdone
  have hall : Triple (fun m' ↦ SameQkv p lay m m' ∧ ∀ hd < 0, ∀ i < p.C, RowDone p lay m hd i m')
      (attention p lay)
      fun _ m' ↦ SameQkv p lay m m' ∧ ∀ hd < p.H, ∀ i < p.C, RowDone p lay m hd i m' :=
    triple_loop
      (fun k m' ↦ SameQkv p lay m m' ∧ ∀ hd < k, ∀ i < p.C, RowDone p lay m hd i m') hhead
  exact hall m ⟨fun _ _ ↦ rfl, fun _ hhd ↦ absurd hhd (Nat.not_lt_zero _)⟩

/-- The share of a position, as the attention step leaves it. -/
theorem attention_share {j : ℕ} (hhd : hd < p.H) (hi : i < p.C) (hj : j < p.C) :
    (attention p lay m).words .fwdLay (p.at lay hd i j) = share p lay m hd i j :=
  ((attention_rows p lay m).2 hd hhd i hi).shares j hj

theorem attention_out {o : ℕ} (hhd : hd < p.H) (hi : i < p.C) (ho : o < p.dh) :
    (attention p lay m).words .fwdLay (p.outAt lay hd i o) = attended p lay m hd i o :=
  ((attention_rows p lay m).2 hd hhd i hi).out o ho

end NoOsKernel.Trans
