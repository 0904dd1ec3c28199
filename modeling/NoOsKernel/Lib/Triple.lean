import Mathlib
import NoOsKernel.Lib.Accesses

/-!
# What programs over buffers leave

`Triple P p Q` says that `p`, run on buffers with `P`, leaves a result and buffers with `Q`, and
`ChangesOnly W p` that the words outside `W` are as they were. There is one rule for each way to build
a program. Two kinds of loops get rules of their own: those that only read (`fold_reads`), whose
result is computed from the buffers as they are, and those that store at one index a round
(`fold_stores`).
-/

set_option autoImplicit false
set_option relaxedAutoImplicit false

namespace NoOsKernel.Lib

namespace Prog

variable {β ω α γ σ : Type} {P P' R : Words β ω → Prop} {Q Q' : α → Words β ω → Prop}
  {p : Prog β ω α} {f : α → Prog β ω γ} {m : Words β ω}

/-! ### Laws -/

instance : LawfulMonad (Prog β ω) :=
  LawfulMonad.mk' _
    (fun _ ↦ funext fun _ ↦ congrArg (Outcome.mk _ _) (List.append_nil _))
    (fun _ _ ↦ rfl)
    (fun _ _ _ ↦ funext fun _ ↦ congrArg (Outcome.mk _ _) (List.append_assoc ..))

-- The equations of this section are not tagged as definitional: a defeq check by unfolding would run
-- the programs.

theorem bind_words (p : Prog β ω α) (f : α → Prog β ω γ) (m : Words β ω) :
    ((p >>= f) m).words = (f (p m).result (p m).words).words :=
  (rfl)

theorem bind_result (p : Prog β ω α) (f : α → Prog β ω γ) (m : Words β ω) :
    ((p >>= f) m).result = (f (p m).result (p m).words).result :=
  (rfl)

theorem pure_words (a : α) (m : Words β ω) : ((pure a : Prog β ω α) m).words = m := (rfl)

theorem pure_result (a : α) (m : Words β ω) : ((pure a : Prog β ω α) m).result = a := (rfl)

theorem read_words (b : β) (i : ℕ) (m : Words β ω) : (read b i m).words = m := (rfl)

theorem read_result (b : β) (i : ℕ) (m : Words β ω) : (read b i m).result = m b i := (rfl)

theorem inl_words_left {δ : Type} (p : Prog β ω α) (m : Words (β ⊕ δ) ω) (b : β) :
    (inl p m).words (.inl b) = (p fun b ↦ m (.inl b)).words b :=
  (rfl)

theorem inl_words_right {δ : Type} (p : Prog β ω α) (m : Words (β ⊕ δ) ω) (b : δ) :
    (inl p m).words (.inr b) = m (.inr b) :=
  (rfl)

/-- A loop is a shorter one and the rest. -/
theorem foldFrom_add (k a b : ℕ) (acc : σ) (body : ℕ → σ → Prog β ω σ) :
    foldFrom k (a + b) acc body = foldFrom k a acc body >>= (foldFrom (k + a) b · body) := by
  induction a generalizing k acc with
  | zero => rw [Nat.zero_add, foldFrom, pure_bind, Nat.add_zero]
  | succ a ih =>
    rw [Nat.add_right_comm, foldFrom, foldFrom, bind_assoc]
    refine congrArg (body k acc >>= ·) (funext fun acc' ↦ ?_)
    rw [ih, Nat.add_right_comm, Nat.add_assoc]

/-- A loop up to one of its rounds, that round, and the rest. -/
theorem loop_split {n i : ℕ} (hi : i < n) (body : ℕ → Prog β ω Unit) : ∃ rest : Prog β ω Unit,
    loop n body = loop i body >>= fun _ ↦ body i >>= fun _ ↦ rest := by
  obtain ⟨r, rfl⟩ := Nat.exists_eq_add_of_lt hi
  refine ⟨foldFrom (i + 1) r () fun j _ ↦ body j, ?_⟩
  rw [loop, fold, Nat.add_assoc, foldFrom_add, Nat.zero_add, Nat.add_comm r 1, Nat.add_comm 1 r]
  rfl

/-! ### Triples -/

/-- Run on buffers with `P`, the program leaves a result and buffers with `Q`. -/
def Triple (P : Words β ω → Prop) (p : Prog β ω α) (Q : α → Words β ω → Prop) : Prop :=
  ∀ m, P m → Q (p m).result (p m).words

theorem Triple.conseq (h : Triple P p Q) (hP : ∀ m, P' m → P m) (hQ : ∀ a m, Q a m → Q' a m) :
    Triple P' p Q' :=
  fun m hm ↦ hQ _ _ (h m (hP m hm))

theorem triple_pure {a : α} (h : ∀ m, P m → Q a m) : Triple P (pure a) Q := h

theorem triple_bind {S : γ → Words β ω → Prop} (hp : Triple P p Q) (hf : ∀ a, Triple (Q a) (f a) S) :
    Triple P (p >>= f) S :=
  fun m hm ↦ hf _ _ (hp m hm)

/-- The buffers with one word changed. -/
def put [DecidableEq β] (m : Words β ω) (b : β) (i : ℕ) (v : ω) : Words β ω :=
  fun b' i' ↦ if b' = b ∧ i' = i then v else m b' i'

@[simp] theorem put_self [DecidableEq β] (m : Words β ω) (b : β) (i : ℕ) (v : ω) :
    put m b i v b i = v :=
  if_pos ⟨rfl, rfl⟩

theorem put_of_ne [DecidableEq β] {b b' : β} {i i' : ℕ} (h : ¬ (b' = b ∧ i' = i)) (v : ω) :
    put m b i v b' i' = m b' i' :=
  if_neg h

theorem write_words [DecidableEq β] (b : β) (i : ℕ) (v : ω) (m : Words β ω) :
    (write b i v m).words = put m b i v :=
  (rfl)

/-- An invariant that every round keeps holds after the loop. -/
theorem triple_foldFrom {k n : ℕ} {body : ℕ → σ → Prog β ω σ} (I : ℕ → σ → Words β ω → Prop)
    (hbody : ∀ i acc, k ≤ i → i < k + n → Triple (I i acc) (body i acc) (I (i + 1))) (acc : σ) :
    Triple (I k acc) (foldFrom k n acc body) (I (k + n)) := by
  induction n generalizing k acc with
  | zero => exact triple_pure fun _ hm ↦ hm
  | succ n ih =>
    have hrest : ∀ acc', Triple (I (k + 1) acc') (foldFrom (k + 1) n acc' body) (I (k + 1 + n)) :=
      ih fun i acc'' hlow hhigh ↦ hbody i acc'' (by omega) (by omega)
    rw [Nat.add_right_comm k 1 n] at hrest
    exact triple_bind (hbody k acc (Nat.le_refl k) (by omega)) hrest

theorem triple_fold {n : ℕ} {body : ℕ → σ → Prog β ω σ} {acc : σ} (I : ℕ → σ → Words β ω → Prop)
    (hbody : ∀ i < n, ∀ acc, Triple (I i acc) (body i acc) (I (i + 1))) :
    Triple (I 0 acc) (fold n acc body) (I n) := by
  have h : Triple (I 0 acc) (foldFrom 0 n acc body) (I (0 + n)) :=
    triple_foldFrom I (fun i acc _ hi ↦ hbody i (by omega) acc) acc
  rw [Nat.zero_add] at h
  exact h

theorem triple_loop {n : ℕ} {body : ℕ → Prog β ω Unit} (I : ℕ → Words β ω → Prop)
    (hbody : ∀ i < n, Triple (I i) (body i) fun _ ↦ I (i + 1)) :
    Triple (I 0) (loop n body) fun _ ↦ I n :=
  triple_fold (fun i _ ↦ I i) fun i hi _ ↦ hbody i hi

/-! ### The words that change -/

/-- Only words in `W` change. -/
def ChangesOnly (W : Set (β × ℕ)) (p : Prog β ω α) : Prop :=
  ∀ m b i, (b, i) ∉ W → (p m).words b i = m b i

variable {W W' : Set (β × ℕ)}

theorem ChangesOnly.mono (h : ChangesOnly W p) (hsub : W ⊆ W') : ChangesOnly W' p :=
  fun m b i hout ↦ h m b i fun hin ↦ hout (hsub hin)

theorem changesOnly_pure (a : α) : ChangesOnly W (pure a : Prog β ω α) := fun _ _ _ _ ↦ rfl

theorem changesOnly_bind (hp : ChangesOnly W p) (hf : ∀ a, ChangesOnly W (f a)) :
    ChangesOnly W (p >>= f) :=
  fun m b i hout ↦ (hf _ _ b i hout).trans (hp m b i hout)

theorem changesOnly_read (b : β) (i : ℕ) : ChangesOnly W (read b i : Prog β ω ω) :=
  fun _ _ _ _ ↦ rfl

theorem changesOnly_write [DecidableEq β] {b : β} {i : ℕ} (v : ω) (hin : (b, i) ∈ W) :
    ChangesOnly W (write b i v) := by
  intro m b' i' hout
  refine put_of_ne ?_ v
  rintro ⟨rfl, rfl⟩
  exact hout hin

theorem changesOnly_ite {c : Prop} [Decidable c] {q : Prog β ω α} (hp : c → ChangesOnly W p)
    (hq : ¬ c → ChangesOnly W q) : ChangesOnly W (if c then p else q) := by
  split_ifs with hc
  · exact hp hc
  · exact hq hc

theorem changesOnly_foldFrom {k n : ℕ} {body : ℕ → σ → Prog β ω σ}
    (hbody : ∀ i acc, k ≤ i → i < k + n → ChangesOnly W (body i acc)) (acc : σ) :
    ChangesOnly W (foldFrom k n acc body) := by
  induction n generalizing k acc with
  | zero => exact changesOnly_pure acc
  | succ n ih =>
    refine changesOnly_bind (hbody k acc (Nat.le_refl k) (by omega)) fun acc' ↦ ?_
    exact ih (fun i acc'' hlow hhigh ↦ hbody i acc'' (by omega) (by omega)) acc'

theorem changesOnly_fold {n : ℕ} {body : ℕ → σ → Prog β ω σ} (acc : σ)
    (hbody : ∀ i acc, i < n → ChangesOnly W (body i acc)) : ChangesOnly W (fold n acc body) :=
  changesOnly_foldFrom (fun i acc _ hi ↦ hbody i acc (by omega)) acc

theorem changesOnly_loop {n : ℕ} {body : ℕ → Prog β ω Unit}
    (hbody : ∀ i < n, ChangesOnly W (body i)) : ChangesOnly W (loop n body) :=
  changesOnly_fold () fun i _ hi ↦ hbody i hi

/-- What is known of words that do not change stays known. -/
theorem Triple.frame (h : Triple P p Q) (hW : ChangesOnly W p)
    (hR : ∀ m m' : Words β ω, (∀ b i, (b, i) ∉ W → m' b i = m b i) → R m → R m') :
    Triple (fun m ↦ P m ∧ R m) p fun a m ↦ Q a m ∧ R m :=
  fun m hm ↦ ⟨h m hm.1, hR m _ (hW m) hm.2⟩

/-! ### Loops that read -/

/-- A loop whose rounds leave the buffers alone folds what they compute from them. -/
theorem foldFrom_reads {k n : ℕ} {body : ℕ → σ → Prog β ω σ} {step : σ → ℕ → σ}
    (hbody : ∀ i acc, k ≤ i → i < k + n →
      (body i acc m).words = m ∧ (body i acc m).result = step acc i) (acc : σ) :
    (foldFrom k n acc body m).words = m ∧
      (foldFrom k n acc body m).result = (List.range' k n).foldl step acc := by
  induction n generalizing k acc with
  | zero => exact ⟨rfl, rfl⟩
  | succ n ih =>
    obtain ⟨hwords, hresult⟩ := hbody k acc (Nat.le_refl k) (by omega)
    have hrest := ih (k := k + 1) (fun i acc' hlow hhigh ↦ hbody i acc' (by omega) (by omega))
      (step acc k)
    rw [← hwords, ← hresult] at hrest
    rw [List.range'_succ, List.foldl_cons, ← hresult]
    exact ⟨hrest.1.trans hwords, by rw [← hwords] at hrest ⊢; exact hrest.2⟩

theorem fold_reads {n : ℕ} {body : ℕ → σ → Prog β ω σ} {acc : σ} (step : σ → ℕ → σ)
    (hbody : ∀ i < n, ∀ acc, (body i acc m).words = m ∧ (body i acc m).result = step acc i) :
    (fold n acc body m).words = m ∧
      (fold n acc body m).result = (List.range n).foldl step acc := by
  rw [List.range_eq_range']
  exact foldFrom_reads (fun i acc _ hi ↦ hbody i (by omega) acc) acc

theorem foldl_add [AddCommMonoid σ] (n : ℕ) (acc : σ) (g : ℕ → σ) :
    (List.range n).foldl (fun a i ↦ a + g i) acc = acc + ∑ i ∈ Finset.range n, g i := by
  induction n with
  | zero => exact (add_zero acc).symm
  | succ n ih =>
    rw [List.range_succ, List.foldl_append, ih, Finset.sum_range_succ, ← add_assoc]
    rfl

/-- A loop that adds up what its rounds compute. -/
theorem fold_sum [AddCommMonoid σ] {n : ℕ} {body : ℕ → σ → Prog β ω σ} {acc : σ} (g : ℕ → σ)
    (hbody : ∀ i < n, ∀ acc, (body i acc m).words = m ∧ (body i acc m).result = acc + g i) :
    (fold n acc body m).words = m ∧
      (fold n acc body m).result = acc + ∑ i ∈ Finset.range n, g i := by
  obtain ⟨hwords, hresult⟩ := fold_reads (fun a i ↦ a + g i) hbody
  exact ⟨hwords, hresult.trans (foldl_add n acc g)⟩

/-! ### Loops that store -/

/-- `m'` is `m` with `val j` at the index `f j` of `b`, for every `j < n`. -/
structure Stored (b : β) (f : ℕ → ℕ) (val : ℕ → ω) (n : ℕ) (m m' : Words β ω) : Prop where
  at_index : ∀ j < n, m' b (f j) = val j
  elsewhere : ∀ b' x, (∀ j < n, ¬ (b' = b ∧ x = f j)) → m' b' x = m b' x

theorem Stored.other {b b' : β} {f : ℕ → ℕ} {val : ℕ → ω} {n : ℕ} {m m' : Words β ω}
    (h : Stored b f val n m m') (hb : b' ≠ b) : m' b' = m b' := by
  funext x
  exact h.elsewhere b' x fun _ _ heq ↦ hb heq.1

variable {b : β}

theorem stored_zero {index : ℕ → ℕ} {val : ℕ → ω} (m : Words β ω) : Stored b index val 0 m m :=
  ⟨fun _ hj ↦ absurd hj (Nat.not_lt_zero _), fun _ _ _ ↦ rfl⟩

/-- An entry of a filled matrix. -/
theorem Stored.entry {C D off t j : ℕ} {m m' : Words β ω} (val : ℕ → ℕ → ω)
    (h : Stored b (off + ·) (fun i ↦ val (i / D) (i % D)) (C * D) m m') (ht : t < C) (hj : j < D) :
    m' b (off + (t * D + j)) = val t j := by
  have hlt : t * D + j < C * D := by
    calc t * D + j < t * D + D := Nat.add_lt_add_left hj _
      _ = (t + 1) * D := (Nat.add_one_mul t D).symm
      _ ≤ C * D := Nat.mul_le_mul_right D ht
  refine (h.at_index (t * D + j) hlt).trans ?_
  rw [Nat.mul_comm, Nat.mul_add_div (Nat.zero_lt_of_lt hj), Nat.div_eq_of_lt hj, Nat.add_zero,
    Nat.mul_add_mod, Nat.mod_eq_of_lt hj]

variable [DecidableEq β]

theorem Stored.succ {index : ℕ → ℕ} {val : ℕ → ω} {n : ℕ} {m m' : Words β ω} (h : Stored b index val n m m')
    (hinj : ∀ j < n, index j ≠ index n) :
    Stored b index val (n + 1) m (put m' b (index n) (val n)) := by
  constructor
  · intro j hj
    obtain hlt | rfl := Nat.lt_succ_iff_lt_or_eq.mp hj
    · rw [put_of_ne fun heq ↦ hinj j hlt heq.2]
      exact h.at_index j hlt
    · exact put_self ..
  · intro b' x hout
    rw [put_of_ne (hout n (Nat.lt_succ_self n))]
    exact h.elsewhere b' x fun j hj ↦ hout j (Nat.lt_succ_of_lt hj)

/-- A loop with an accumulator that stores at one index a round. What a round computes may depend on
the accumulator and on the words no earlier round has stored at. -/
theorem fold_stores {n : ℕ} {body : ℕ → σ → Prog β ω σ} {acc : σ} (index : ℕ → ℕ) (val : ℕ → ω)
    (step : σ → ℕ → σ) (hinj : ∀ i < n, ∀ j < i, index j ≠ index i)
    (hbody : ∀ i < n, ∀ m', Stored b index val i m m' →
      (body i ((List.range i).foldl step acc) m').words = put m' b (index i) (val i) ∧
        (body i ((List.range i).foldl step acc) m').result =
          step ((List.range i).foldl step acc) i) :
    Stored b index val n m (fold n acc body m).words ∧
      (fold n acc body m).result = (List.range n).foldl step acc := by
  have h : Triple (fun m' ↦ Stored b index val 0 m m' ∧ acc = (List.range 0).foldl step acc)
      (fold n acc body)
      fun a m' ↦ Stored b index val n m m' ∧ a = (List.range n).foldl step acc := by
    refine triple_fold (fun i a m' ↦ Stored b index val i m m' ∧ a = (List.range i).foldl step acc) ?_
    rintro i hi a m' ⟨hstored, rfl⟩
    obtain ⟨hwords, hresult⟩ := hbody i hi m' hstored
    rw [hwords, hresult, List.range_succ, List.foldl_append]
    exact ⟨hstored.succ (hinj i hi), rfl⟩
  exact h m ⟨stored_zero m, rfl⟩

theorem loop_stores {n : ℕ} {body : ℕ → Prog β ω Unit} (index : ℕ → ℕ) (val : ℕ → ω)
    (hinj : ∀ i < n, ∀ j < i, index j ≠ index i)
    (hbody : ∀ i < n, ∀ m', Stored b index val i m m' →
      (body i m').words = put m' b (index i) (val i)) :
    Stored b index val n m (loop n body m).words :=
  (fold_stores index val (fun _ _ ↦ ()) hinj fun i hi m' hm' ↦ ⟨hbody i hi m' hm', rfl⟩).1

/-- A nest of two loops that fills a matrix, row by row. -/
theorem matrix_stores {C D off : ℕ} {body : ℕ → ℕ → Prog β ω Unit} (val : ℕ → ℕ → ω)
    (hbody : ∀ t < C, ∀ j < D, ∀ m',
      Stored b (off + ·) (fun i ↦ val (i / D) (i % D)) (t * D + j) m m' →
        (body t j m').words = put m' b (off + (t * D + j)) (val t j)) :
    Stored b (off + ·) (fun i ↦ val (i / D) (i % D)) (C * D) m
      (loop C (fun t ↦ loop D (body t)) m).words := by
  have hrow (t : ℕ) (ht : t < C) :
      Triple (fun m' ↦ Stored b (off + ·) (fun i ↦ val (i / D) (i % D)) (t * D) m m')
        (loop D (body t))
        fun _ m' ↦ Stored b (off + ·) (fun i ↦ val (i / D) (i % D)) ((t + 1) * D) m m' := by
    rw [Nat.add_one_mul]
    refine triple_loop
      (fun j m' ↦ Stored b (off + ·) (fun i ↦ val (i / D) (i % D)) (t * D + j) m m') ?_
    intro j hj m' hm'
    have hnext := hm'.succ fun i hi heq ↦ hi.ne (Nat.add_left_cancel heq)
    have hdiv : (t * D + j) / D = t := by
      rw [Nat.mul_comm, Nat.mul_add_div (Nat.zero_lt_of_lt hj), Nat.div_eq_of_lt hj, Nat.add_zero]
    have hmod : (t * D + j) % D = j := by
      rw [Nat.mul_comm, Nat.mul_add_mod, Nat.mod_eq_of_lt hj]
    simp only [hdiv, hmod] at hnext
    rw [hbody t ht j hj m' hm']
    exact hnext
  have hall : Triple (fun m' ↦ Stored b (off + ·) (fun i ↦ val (i / D) (i % D)) (0 * D) m m')
      (loop C fun t ↦ loop D (body t))
      fun _ m' ↦ Stored b (off + ·) (fun i ↦ val (i / D) (i % D)) (C * D) m m' :=
    triple_loop (fun t m' ↦ Stored b (off + ·) (fun i ↦ val (i / D) (i % D)) (t * D) m m') hrow
  rw [Nat.zero_mul] at hall
  exact hall m (stored_zero m)

end Prog

end NoOsKernel.Lib
