import NoOsKernel.Lib.Triple
import NoOsKernel.Trans.Backward

/-!
# What the pieces of a pass leave

The words the pieces of the forward and the backward pass store, as far as later modules use them.
-/

set_option autoImplicit false
set_option relaxedAutoImplicit false

namespace NoOsKernel.Trans

open Lib Lib.Prog

/-! ### Rows under a layer norm -/

/-- The sum of a row and that of its squares. -/
def rowSums {β : Type} (b : β) (off D : ℕ) : Prog β ℤ (ℤ × ℤ) :=
  fold D ((0 : ℤ), (0 : ℤ)) fun i acc ↦ do
    let v ← read b (off + i)
    pure (acc.1 + v, acc.2 + v * v)

/-- The mean of a row, from its sums. -/
def lnMean (D : ℕ) (s : ℤ × ℤ) : ℤ := s.1.tdiv D

/-- The reciprocal root of the variance of a row, from its sums. -/
def lnRecip (D : ℕ) (s : ℤ × ℤ) : ℤ :=
  let var := s.2.tdiv D - lnMean D s * lnMean D s
  rsqrt24 (BitVec.ofInt 32 (if 0 < var then var else 1))

/-- The second loop of `layernorm`. -/
def lnStore (b : WsBuf) (off D : ℕ) (g bias : ℕ → ℤ) (mean r : ℤ) : Ws Unit :=
  loop D fun i ↦ do
    let x ← read b (off + i)
    write b (off + i) (clamp16 ((((x - mean) * r) >>> 8 * g i) >>> 4 + bias i * 16))

theorem layernorm_eq (b : WsBuf) (off D : ℕ) (g bias : ℕ → ℤ) :
    layernorm b off D g bias =
      rowSums b off D >>= fun s ↦ lnStore b off D g bias (lnMean D s) (lnRecip D s) :=
  rfl

theorem rowSums_words {β : Type} (b : β) (off D : ℕ) (m : Words β ℤ) :
    (rowSums b off D m).words = m :=
  (fold_reads (fun acc i ↦ (acc.1 + m b (off + i), acc.2 + m b (off + i) * m b (off + i)))
    fun _ _ _ ↦ ⟨rfl, rfl⟩).1

theorem lnStore_stored (b : WsBuf) (off D : ℕ) (g bias : ℕ → ℤ) (mean r : ℤ) (m : Words WsBuf ℤ) :
    Stored b (off + ·)
      (fun i ↦ clamp16 ((((m b (off + i) - mean) * r) >>> 8 * g i) >>> 4 + bias i * 16)) D m
      (lnStore b off D g bias mean r m).words := by
  refine loop_stores _ _ (fun i _ j hj heq ↦ hj.ne (Nat.add_left_cancel heq)) fun i hi m' hm' ↦ ?_
  have hsame : m' b (off + i) = m b (off + i) :=
    hm'.elsewhere b (off + i) fun j hj heq ↦ hj.ne (Nat.add_left_cancel heq.2).symm
  change put m' b (off + i) (clamp16 ((((m' b (off + i) - mean) * r) >>> 8 * g i) >>> 4 + bias i * 16)) =
    _
  rw [hsame]

/-- `layernorm` stores a row: each normalised value, scaled and shifted. -/
theorem layernorm_stored (b : WsBuf) (off D : ℕ) (g bias : ℕ → ℤ) (m : Words WsBuf ℤ) :
    ∃ n : ℕ → ℤ, Stored b (off + ·) (fun i ↦ clamp16 ((n i * g i) >>> 4 + bias i * 16)) D m
      (layernorm b off D g bias m).words := by
  have hrun : (layernorm b off D g bias m).words =
      (lnStore b off D g bias (lnMean D (rowSums b off D m).result)
        (lnRecip D (rowSums b off D m).result) m).words := by
    rw [layernorm_eq, bind_words, rowSums_words]
  rw [hrun]
  exact ⟨_, lnStore_stored b off D g bias _ _ m⟩

/-! ### The last steps of the forward pass -/

/-- The second half of `outputHead`: the logits of the normalised rows. -/
def headLogits (c : TransCfg) (p : Dims) (x : Inputs) : Ws Unit :=
  loop p.C fun t ↦ loop transVocab fun j ↦ do
    let a ← dot x p.D (fun k ↦ oFinlnB c + p.D + (k * transVocab + j)) .h0
      (p.L * (p.C * p.D) + t * p.D)
    write .logits (t * transVocab + j) (clamp16 (a >>> 8))

/-- Against zeros a row of a matrix product is zero. -/
theorem dot_zero (x : Inputs) {n : ℕ} (wi : ℕ → ℕ) {b : WsBuf} {off : ℕ} {m : Words WsBuf ℤ}
    (hzero : ∀ k < n, m b (off + k) = 0) :
    (dot x n wi b off m).words = m ∧ (dot x n wi b off m).result = 0 := by
  have h : Triple (fun m' ↦ (0 : ℤ) = 0 ∧ m' = m) (dot x n wi b off) fun a m' ↦ a = 0 ∧ m' = m := by
    refine triple_fold (fun _ a m' ↦ a = 0 ∧ m' = m) ?_
    rintro k hk a m' ⟨rfl, rfl⟩
    refine ⟨?_, rfl⟩
    change toI32 (0 + x.w (wi k) * m' b (off + k)) = 0
    rw [hzero k hk, mul_zero]
    rfl
  exact (h m ⟨rfl, rfl⟩).symm

/-- A row of a matrix lies before the next one. -/
theorem row_lt_row {t t' i D : ℕ} (ht : t' < t) (hi : i < D) : t' * D + i < t * D := by
  calc t' * D + i < t' * D + D := Nat.add_lt_add_left hi _
    _ = (t' + 1) * D := (Nat.add_one_mul t' D).symm
    _ ≤ t * D := Nat.mul_le_mul_right D ht

/-- With gain and bias zero a layer norm of `C` rows leaves zeros. -/
theorem layernorm_rows_zero {b : WsBuf} {off C D : ℕ} {g bias : ℕ → ℤ} (hg : ∀ i < D, g i = 0)
    (hbias : ∀ i < D, bias i = 0) (m : Words WsBuf ℤ) : ∀ t < C, ∀ i < D,
      (loop C (fun t ↦ layernorm b (off + t * D) D g bias) m).words b (off + t * D + i) = 0 := by
  have h : Triple (fun m' ↦ ∀ t' < 0, ∀ i < D, m' b (off + t' * D + i) = 0)
      (loop C fun t ↦ layernorm b (off + t * D) D g bias)
      fun _ m' ↦ ∀ t' < C, ∀ i < D, m' b (off + t' * D + i) = 0 := by
    refine triple_loop (fun t m' ↦ ∀ t' < t, ∀ i < D, m' b (off + t' * D + i) = 0) ?_
    intro t _ m' hm' t' ht' i hi
    obtain ⟨n, hstored⟩ := layernorm_stored b (off + t * D) D g bias m'
    obtain hlt | rfl := Nat.lt_succ_iff_lt_or_eq.mp ht'
    · have hrow := row_lt_row hlt hi
      refine (hstored.elsewhere b _ fun j _ heq ↦ ?_).trans (hm' t' hlt i hi)
      have hindex : off + t' * D + i = off + t * D + j := heq.2
      omega
    · refine (hstored.at_index i hi).trans ?_
      simp only [hg i hi, hbias i hi, mul_zero, zero_mul, add_zero]
      rfl
  exact h m fun _ h ↦ absurd h (Nat.not_lt_zero _)

/-- Against rows of zeros the logits are zero. -/
theorem headLogits_zero {c : TransCfg} {p : Dims} {x : Inputs} {m : Words WsBuf ℤ}
    (hzero : ∀ t < p.C, ∀ k < p.D, m .h0 (p.L * (p.C * p.D) + t * p.D + k) = 0) :
    ∀ t < p.C, ∀ j < transVocab, (headLogits c p x m).words .logits (t * transVocab + j) = 0 := by
  have hstored : Stored .logits (0 + ·) (fun _ ↦ (0 : ℤ)) (p.C * transVocab) m
      (headLogits c p x m).words := by
    refine matrix_stores (fun _ _ ↦ (0 : ℤ)) fun t ht j _ m' hm' ↦ ?_
    have hrow (k : ℕ) (hk : k < p.D) : m' .h0 (p.L * (p.C * p.D) + t * p.D + k) = 0 := by
      rw [hm'.other (by decide)]
      exact hzero t ht k hk
    obtain ⟨hwords, hresult⟩ := dot_zero x (fun k ↦ oFinlnB c + p.D + (k * transVocab + j)) hrow
    rw [bind_words, hwords, hresult, Nat.zero_add]
    rfl
  intro t ht j hj
  have h := hstored.entry (fun _ _ ↦ (0 : ℤ)) ht hj
  rw [Nat.zero_add] at h
  exact h

/-- With gain and bias of the final layer norm zero, all logits are zero. -/
theorem outputHead_zero {c : TransCfg} {p : Dims} {x : Inputs}
    (hg : ∀ i < p.D, x.w (oFinlnG c + i) = 0) (hb : ∀ i < p.D, x.w (oFinlnB c + i) = 0)
    (m : Words WsBuf ℤ) :
    ∀ t < p.C, ∀ j < transVocab, (outputHead c p x m).words .logits (t * transVocab + j) = 0 :=
  headLogits_zero (layernorm_rows_zero hg hb _)

/-! ### Loss -/

/-- The exponential of a difference to the maximum. -/
def expOf (s : ℤ) : ℤ := if s ≤ -2048 then 0 else if 0 ≤ s then 4096 else expmTab (-s).toNat

/-- A search for the largest of `n` numbers, from `a` on. -/
theorem foldl_max (f : ℕ → ℤ) (n : ℕ) (a : ℤ) :
    a ≤ (List.range n).foldl (fun mx j ↦ if mx < f j then f j else mx) a ∧
      (∀ j < n, f j ≤ (List.range n).foldl (fun mx j ↦ if mx < f j then f j else mx) a) ∧
      ((List.range n).foldl (fun mx j ↦ if mx < f j then f j else mx) a = a ∨
        ∃ j < n, (List.range n).foldl (fun mx j ↦ if mx < f j then f j else mx) a = f j) := by
  induction n with
  | zero => exact ⟨le_refl a, fun _ hj ↦ absurd hj (Nat.not_lt_zero _), Or.inl rfl⟩
  | succ n ih =>
    rw [List.range_succ, List.foldl_append, List.foldl_cons, List.foldl_nil]
    generalize (List.range n).foldl (fun mx j ↦ if mx < f j then f j else mx) a = mx at ih ⊢
    obtain ⟨hbase, hall, hsome⟩ := ih
    split_ifs with hlt
    · refine ⟨by omega, fun j hj ↦ ?_, Or.inr ⟨n, Nat.lt_succ_self n, rfl⟩⟩
      obtain hj | rfl := Nat.lt_succ_iff_lt_or_eq.mp hj
      · exact (hall j hj).trans hlt.le
      · exact le_refl _
    · refine ⟨hbase, fun j hj ↦ ?_, hsome.imp_right fun ⟨j, hj, h⟩ ↦ ⟨j, Nat.lt_succ_of_lt hj, h⟩⟩
      obtain hj | rfl := Nat.lt_succ_iff_lt_or_eq.mp hj
      · exact hall j hj
      · exact not_lt.mp hlt

/-- The maximum of a row of logits. -/
def rowMax (row : ℕ) : Ws ℤ :=
  fold transVocab (-32768 : ℤ) fun j mx ↦ do
    let v ← read .logits (row + j)
    pure (if mx < v then v else mx)

/-- The exponentials of a row of logits, into `scr`; returns their sum. -/
def rowExp (row : ℕ) (mx : ℤ) : Ws ℤ :=
  fold transVocab (0 : ℤ) fun j esum ↦ do
    let v ← read .logits (row + j)
    let s := v - mx
    let e : ℤ := if s ≤ -2048 then 0 else if 0 ≤ s then 4096 else expmTab (-s).toNat
    write .scr j (toI16 e)
    pure (esum + e)

/-- The exponentials become probabilities. -/
def rowDiv (esum : ℤ) : Ws Unit :=
  loop transVocab fun j ↦ do
    let e ← read .scr j
    write .scr j (toI16 (e * 4096 % 2 ^ 32 / esum))

theorem softmaxV_eq (row : ℕ) : softmaxV row =
    rowMax row >>= fun mx ↦ rowExp row mx >>= fun esum ↦ rowDiv (if esum < 1 then 1 else esum) :=
  rfl

theorem rowMax_zero {row : ℕ} {m : Words WsBuf ℤ} (hzero : ∀ j < transVocab, m .logits (row + j) = 0) :
    (rowMax row m).words = m ∧ (rowMax row m).result = 0 := by
  have h : Triple (fun m' ↦ (-32768 : ℤ) = (if 0 = 0 then -32768 else 0) ∧ m' = m) (rowMax row)
      fun mx m' ↦ mx = (if transVocab = 0 then -32768 else 0) ∧ m' = m := by
    refine triple_fold (fun i mx m' ↦ mx = (if i = 0 then -32768 else 0) ∧ m' = m) ?_
    rintro j hj mx m' ⟨rfl, rfl⟩
    refine ⟨?_, rfl⟩
    rw [bind_result]
    change (if (if j = 0 then -32768 else 0) < m' .logits (row + j) then m' .logits (row + j)
      else if j = 0 then -32768 else 0) = if j + 1 = 0 then -32768 else 0
    rw [hzero j hj, if_neg (Nat.succ_ne_zero j)]
    by_cases hj' : j = 0
    · rw [if_pos hj']
      rfl
    · rw [if_neg hj', if_neg (lt_irrefl 0)]
  exact (h m ⟨rfl, rfl⟩).symm

theorem rowExp_stored (row : ℕ) (mx : ℤ) (m : Words WsBuf ℤ) :
    Stored .scr (fun j ↦ j) (fun j ↦ toI16 (expOf (m .logits (row + j) - mx))) transVocab m
      (rowExp row mx m).words ∧
    (rowExp row mx m).result = ∑ j ∈ Finset.range transVocab, expOf (m .logits (row + j) - mx) := by
  have h : Stored .scr (fun j ↦ j) (fun j ↦ toI16 (expOf (m .logits (row + j) - mx))) transVocab m
      (rowExp row mx m).words ∧ (rowExp row mx m).result =
        (List.range transVocab).foldl (fun acc j ↦ acc + expOf (m .logits (row + j) - mx)) 0 := by
    refine fold_stores _ _ _ (fun i _ j hj heq ↦ hj.ne heq) fun j _ m' hm' ↦ ?_
    have hlogit : m' .logits (row + j) = m .logits (row + j) :=
      congrFun (hm'.other (by decide)) _
    rw [← hlogit]
    exact ⟨rfl, rfl⟩
  exact ⟨h.1, h.2.trans ((foldl_add ..).trans (zero_add _))⟩

theorem rowDiv_stored (esum : ℤ) (m : Words WsBuf ℤ) :
    Stored .scr (fun j ↦ j) (fun j ↦ toI16 (m .scr j * 4096 % 2 ^ 32 / esum)) transVocab m
      (rowDiv esum m).words := by
  refine loop_stores _ _ (fun i _ j hj heq ↦ hj.ne heq) fun j hj m' hm' ↦ ?_
  have he : m' .scr j = m .scr j := hm'.elsewhere .scr j fun i hi heq ↦ hi.ne heq.2.symm
  change put m' .scr j (toI16 (m' .scr j * 4096 % 2 ^ 32 / esum)) = _
  rw [he]

/-- `softmax_v` of a row of zeros gives every byte the probability `16 / 4096`. -/
theorem softmaxV_zero {row : ℕ} {m : Words WsBuf ℤ} (hzero : ∀ j < transVocab, m .logits (row + j) = 0) :
    Stored .scr (fun j ↦ j) (fun _ ↦ (16 : ℤ)) transVocab m (softmaxV row m).words := by
  obtain ⟨hmax, hmax'⟩ := rowMax_zero hzero
  obtain ⟨hexp, hsum⟩ := rowExp_stored row 0 m
  have hone (j : ℕ) (hj : j < transVocab) : expOf (m .logits (row + j) - 0) = 4096 := by
    rw [hzero j hj]
    rfl
  rw [Finset.sum_congr rfl fun j hj ↦ hone j (Finset.mem_range.mp hj), Finset.sum_const,
    Finset.card_range] at hsum
  rw [softmaxV_eq, bind_words, bind_words, hmax, hmax', hsum]
  generalize hesum : (if transVocab • (4096 : ℤ) < 1 then (1 : ℤ) else transVocab • 4096) = esum
  have hquot : toI16 ((4096 : ℤ) * 4096 % 2 ^ 32 / esum) = 16 := by
    rw [← hesum]
    decide
  generalize (rowExp row 0 m).words = m₁ at hexp ⊢
  have hdiv := rowDiv_stored esum m₁
  generalize (rowDiv esum m₁).words = m₂ at hdiv ⊢
  constructor
  · intro j hj
    have he : m₁ .scr j = 4096 := by
      rw [hexp.at_index j hj, hone j hj]
      rfl
    rw [hdiv.at_index j hj, he, hquot]
  · exact fun b x hout ↦ (hdiv.elsewhere b x hout).trans (hexp.elsewhere b x hout)

/-! ### Backward -/

/-- `backDot` adds up the gradients, each times its weight. -/
theorem backDot_reads (x : Inputs) (n : ℕ) (wi : ℕ → ℕ) (b : TrainBuf) (off : ℕ)
    (m : Words TrainBuf ℤ) : (backDot x n wi b off m).words = m ∧
      (backDot x n wi b off m).result = ∑ j ∈ Finset.range n, x.w (wi j) * m b (off + j) := by
  obtain ⟨hwords, hresult⟩ :
      (backDot x n wi b off m).words = m ∧ (backDot x n wi b off m).result =
        0 + ∑ j ∈ Finset.range n, x.w (wi j) * m b (off + j) :=
    fold_sum (fun j ↦ x.w (wi j) * m b (off + j)) fun _ _ _ ↦ ⟨rfl, rfl⟩
  exact ⟨hwords, hresult.trans (zero_add _)⟩

theorem clear_stored (b : TrainBuf) (off n : ℕ) (m : Words TrainBuf ℤ) :
    Stored b (off + ·) (fun _ ↦ (0 : ℤ)) n m (clear b off n m).words :=
  loop_stores _ _ (fun _ _ _ hj heq ↦ hj.ne (Nat.add_left_cancel heq)) fun _ _ _ _ ↦ rfl

theorem changesOnly_add {W : Set (TrainBuf × ℕ)} {b : TrainBuf} {i : ℕ} (v : ℤ) (hin : (b, i) ∈ W) :
    ChangesOnly W (add b i v) :=
  changesOnly_bind (changesOnly_read b i) fun a ↦ changesOnly_write (a + v) hin

/-- `addRow` changes a row of weight gradients, if what it reads changes nothing. -/
theorem changesOnly_addRow {W : Set (TrainBuf × ℕ)} {n off : ℕ} (v : ℤ) {g : ℕ → Tr ℤ}
    (hg : ∀ j, ChangesOnly W (g j)) (hin : ∀ j < n, (.inr .wgrad, off + j) ∈ W) :
    ChangesOnly W (addRow n off v g) :=
  changesOnly_ite
    (fun _ ↦ changesOnly_loop fun j hj ↦ changesOnly_bind (hg j) fun _ ↦ changesOnly_add _ (hin j hj))
    fun _ ↦ changesOnly_pure ()

end NoOsKernel.Trans
