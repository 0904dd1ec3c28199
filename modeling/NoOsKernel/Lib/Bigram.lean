import NoOsKernel.Lib.Tally

/-!
# Prediction from bigrams

The next entry of a stream is predicted from the entries that followed the newest one so far, or, if
there are none, from all entries. Both are tallied in a pass that reads the stream from its end back
to its beginning. `candidates` is what the prediction is made from and `Predicts` what it should be:
the entry seen most often, and among equals the one seen last. As the passes end at the beginning of
the stream, what decides between equals in `predict` is where an entry was first seen;
`predicts_predict_iff` says when this makes no difference.
-/

set_option autoImplicit false
set_option relaxedAutoImplicit false

namespace NoOsKernel.Lib.Tally

variable {α : Type*} [DecidableEq α]

/-! ### Two passes -/

/-- The entries of a stream that directly follow `x`. -/
def followers (x : α) (xs : List α) : List α :=
  ((xs.zip xs.tail).filter fun p ↦ p.1 = x).map Prod.snd

theorem mem_of_mem_followers {x y : α} {xs : List α} (hy : y ∈ followers x xs) : y ∈ xs := by
  obtain ⟨p, hp, rfl⟩ := List.mem_map.mp hy
  exact List.mem_of_mem_tail (List.of_mem_zip (List.mem_filter.mp hp).1).2

/-- The pass over all entries, read back from the newest: the entry written `i` entries ago is
`entry i`. -/
def unigramPass (entry : ℕ → α) (count : ℕ) : List (Candidate α) :=
  (List.range' 1 count).foldl (fun cands i ↦ note cands (entry i) (count - i + 1)) []

/-- The pass over the entries that follow the newest one. -/
def bigramPass (entry : ℕ → α) (count : ℕ) : List (Candidate α) :=
  (List.range' 1 (count - 1)).foldl (fun cands i ↦
    if entry (i + 1) ≠ entry 1 then cands else note cands (entry i) (count - i)) []

omit [DecidableEq α] in
/-- Neighbours of a list that is read backwards. -/
theorem zip_tail_reverse (w : List α) :
    w.reverse.zip w.reverse.tail = ((w.zip w.tail).map Prod.swap).reverse := by
  apply List.ext_getElem
  · simp
  · intro k hk _
    simp only [List.length_zip, List.length_reverse, List.length_tail] at hk
    simp only [List.getElem_zip, List.getElem_reverse, List.getElem_tail, List.getElem_map,
      List.length_map, List.length_zip, List.length_tail, Prod.swap_prod_mk, Prod.mk.injEq]
    constructor
    · congr 1
      omega
    · congr 1
      omega

omit [DecidableEq α] in
theorem zip_tail_map_range' (entry : ℕ → α) (count : ℕ) :
    ((List.range' 1 count).map entry).zip ((List.range' 1 count).map entry).tail =
      (List.range' 1 (count - 1)).map fun i ↦ (entry i, entry (i + 1)) := by
  apply List.ext_getElem
  · simp
  · intro k _ _
    simp [Nat.add_assoc, Nat.add_comm 1]

/-- The pass over all entries is a tally of the stream. -/
theorem unigramPass_eq (entry : ℕ → α) (count : ℕ) :
    ∃ seen, unigramPass entry count = tally seen ∧
      seen.map Prod.fst = ((List.range' 1 count).map entry).reverse ∧
      seen.Pairwise fun p q ↦ p.2 < q.2 := by
  refine ⟨((List.range' 1 count).map fun i ↦ (entry i, count - i + 1)).reverse, ?_, ?_, ?_⟩
  · rw [unigramPass, tally, List.foldr_reverse, List.foldl_map]
  · rw [List.map_reverse, List.map_map]
    rfl
  · rw [List.pairwise_reverse, List.pairwise_map]
    refine List.Pairwise.imp_of_mem ?_ List.pairwise_lt_range'
    intro i j hi hj hlt
    have := List.mem_range'_1.mp hj
    omega

/-- The pass over the followers is a tally of the followers. -/
theorem bigramPass_eq (entry : ℕ → α) (count : ℕ) :
    ∃ seen, bigramPass entry count = tally seen ∧
      seen.map Prod.fst = followers (entry 1) ((List.range' 1 count).map entry).reverse ∧
      seen.Pairwise fun p q ↦ p.2 < q.2 := by
  refine ⟨((((List.range' 1 (count - 1)).filter fun i ↦ entry (i + 1) = entry 1).map
    fun i ↦ (entry i, count - i)).reverse), ?_, ?_, ?_⟩
  · rw [bigramPass, tally, List.foldr_reverse, List.foldl_map, List.foldl_filter]
    simp only [decide_eq_true_eq, ne_eq, ite_not]
  · rw [followers, zip_tail_reverse, zip_tail_map_range', List.filter_reverse, List.map_reverse,
      List.map_reverse, List.filter_map, List.filter_map, List.map_map, List.map_map, List.map_map]
    rfl
  · rw [List.pairwise_reverse, List.pairwise_map]
    refine List.Pairwise.imp_of_mem ?_ (List.Pairwise.filter _ List.pairwise_lt_range')
    intro i j hi hj hlt
    have := List.mem_range'_1.mp (List.mem_filter.mp hj).1
    omega

/-! ### Predictions -/

/-- What the next entry is predicted from. -/
def candidates (xs : List α) : List α :=
  match xs.getLast? with
  | none => []
  | some x => if followers x xs = [] then xs else followers x xs

/-- The prediction from the last `count` entries of a stream. -/
def predict (entry : ℕ → α) (count : ℕ) : Option α :=
  match pick (bigramPass entry count) with
  | some y => some y
  | none => pick (unigramPass entry count)

/-- The prediction is the candidate seen most often, and among equals the one seen last. -/
def Predicts (xs : List α) (prediction : Option α) : Prop :=
  xs ≠ [] → ∃ y, prediction = some y ∧ Wins (lastIdxOf (candidates xs)) (candidates xs) y

/-- What is predicted is the candidate seen most often, and among equals the one first seen last. -/
theorem predict_spec (entry : ℕ → α) {count : ℕ} (hcount : 0 < count) :
    ∃ y, predict entry count = some y ∧
      Wins ((candidates ((List.range' 1 count).map entry).reverse).idxOf ·)
        (candidates ((List.range' 1 count).map entry).reverse) y := by
  have hlast : (((List.range' 1 count).map entry).reverse).getLast? = some (entry 1) := by
    rw [List.getLast?_reverse, List.head?_map, List.head?_range', if_neg (by omega)]
    rfl
  obtain ⟨pairs, hpairs, hpairsMap, hpairsStamps⟩ := bigramPass_eq entry count
  obtain ⟨singles, hsingles, hsinglesMap, hsinglesStamps⟩ := unigramPass_eq entry count
  simp only [predict, candidates, hlast, hpairs, hsingles]
  rw [← hpairsMap, ← hsinglesMap]
  split_ifs with hnone
  · rw [pick_tally_eq_none hnone]
    refine pick_tally hsinglesStamps ?_
    rw [hsinglesMap]
    intro hnil
    rw [hnil] at hlast
    exact absurd hlast (by simp)
  · obtain ⟨y, hy, hwins⟩ := pick_tally hpairsStamps hnone
    exact ⟨y, by rw [hy], hwins⟩

/-- The prediction is right exactly if first and last occurrences of the candidates agree. -/
theorem predicts_predict_iff (entry : ℕ → α) (count : ℕ) :
    Predicts ((List.range' 1 count).map entry).reverse (predict entry count) ↔
      (((List.range' 1 count).map entry).reverse ≠ [] →
        FirstsAgree (candidates ((List.range' 1 count).map entry).reverse)) := by
  apply forall_congr'
  intro hne
  have hcount : 0 < count := by
    by_contra hzero
    rw [show count = 0 by omega] at hne
    exact hne rfl
  obtain ⟨y, hy, hwins⟩ := predict_spec entry hcount
  rw [hy, ← wins_lastIdxOf_iff hwins]
  constructor
  · rintro ⟨z, hz, hlast⟩
    rwa [Option.some.inj hz]
  · exact fun hlast ↦ ⟨y, rfl, hlast⟩

end NoOsKernel.Lib.Tally
