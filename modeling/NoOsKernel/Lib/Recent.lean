import Mathlib.Logic.Function.Basic
import Mathlib.Data.List.Basic
import Mathlib.Data.List.Nodup
import Mathlib.Data.List.Destutter
import Mathlib.Data.List.DropRight
import Mathlib.Tactic.Common

/-!
# The last entries of a stream

A `Recent α` is an array of `n` cells in which the newest entry overwrites the oldest. `window`
reads it from the newest entry back. Pushing an entry puts it in front of the window and cuts the
window to `n` entries, so after any pushes to an empty array the window is what the stream ended
with.
-/

set_option autoImplicit false
set_option relaxedAutoImplicit false

namespace NoOsKernel.Lib

variable {α : Type*}

/-- An array, the number of its cells that are in use, and the cell the next entry goes to. -/
structure Recent (α : Type*) where
  cells : ℕ → α
  count : ℕ
  wr : ℕ

namespace Recent

variable (n : ℕ)

/-- The next entry. -/
def push (r : Recent α) (x : α) : Recent α where
  cells := Function.update r.cells r.wr x
  count := if r.count < n then r.count + 1 else r.count
  wr := (r.wr + 1) % n

/-- The entry that was written `back` entries ago, counted from one. -/
def entry (r : Recent α) (back : ℕ) : α := r.cells ((r.wr + n - back) % n)

/-- The entries in use, the newest first. -/
def window (r : Recent α) : List α := (List.range' 1 r.count).map (r.entry n)

/-- The cursor and the number of entries are in range. -/
structure Valid (r : Recent α) : Prop where
  wr_lt : r.wr < n
  count_le : r.count ≤ n

variable {n} {r : Recent α}

@[simp] theorem length_window : (r.window n).length = r.count := by
  rw [window, List.length_map, List.length_range']

theorem Valid.push (hr : r.Valid n) (x : α) : (r.push n x).Valid n := by
  have hwr := hr.wr_lt
  have hle := hr.count_le
  refine ⟨Nat.mod_lt _ (by omega), ?_⟩
  change (if r.count < n then r.count + 1 else r.count) ≤ n
  split_ifs <;> omega

/-- The newest entry is the one that was pushed. -/
theorem entry_push_one (hr : r.Valid n) (x : α) : (r.push n x).entry n 1 = x := by
  have hwr := hr.wr_lt
  have hcell : ((r.wr + 1) % n + n - 1) % n = r.wr := by
    obtain hlast | hlt : r.wr + 1 = n ∨ r.wr + 1 < n := by omega
    · rw [hlast, Nat.mod_self, Nat.zero_add, Nat.mod_eq_of_lt (by omega)]
      omega
    · rw [Nat.mod_eq_of_lt hlt, show r.wr + 1 + n - 1 = r.wr + n by omega, Nat.add_mod_right,
        Nat.mod_eq_of_lt hwr]
  change Function.update r.cells r.wr x (((r.wr + 1) % n + n - 1) % n) = x
  rw [hcell, Function.update_self]

/-- The other entries are one step further back. -/
theorem entry_push_succ (hr : r.Valid n) (x : α) {back : ℕ} (hpos : 0 < back) (hback : back < n) :
    (r.push n x).entry n (back + 1) = r.entry n back := by
  have hwr := hr.wr_lt
  have hcell : ((r.wr + 1) % n + n - (back + 1)) % n = (r.wr + n - back) % n := by
    obtain hlast | hlt : r.wr + 1 = n ∨ r.wr + 1 < n := by omega
    · rw [hlast, Nat.mod_self, show r.wr + n - back = 0 + n - (back + 1) + n by omega,
        Nat.add_mod_right]
    · rw [Nat.mod_eq_of_lt hlt, show r.wr + 1 + n - (back + 1) = r.wr + n - back by omega]
  have hne : (r.wr + n - back) % n ≠ r.wr := by
    obtain hlow | hhigh := Nat.lt_or_ge r.wr back
    · rw [Nat.mod_eq_of_lt (by omega)]
      omega
    · rw [show r.wr + n - back = r.wr - back + n by omega, Nat.add_mod_right,
        Nat.mod_eq_of_lt (by omega)]
      omega
  change Function.update r.cells r.wr x (((r.wr + 1) % n + n - (back + 1)) % n) = _
  rw [hcell, Function.update_of_ne hne]
  rfl

/-- A push goes in front of the window and cuts it to `n` entries. -/
theorem window_push (hr : r.Valid n) (x : α) :
    (r.push n x).window n = (x :: r.window n).take n := by
  have hwr := hr.wr_lt
  have hle := hr.count_le
  obtain ⟨m, rfl⟩ : ∃ m, n = m + 1 := ⟨n - 1, by omega⟩
  have hcount : (r.push (m + 1) x).count = min r.count m + 1 := by
    change (if r.count < m + 1 then r.count + 1 else r.count) = _
    split_ifs <;> omega
  have hrest : (List.range' 2 (min r.count m)).map ((r.push (m + 1) x).entry (m + 1)) =
      (List.range' 1 (min r.count m)).map (r.entry (m + 1)) := by
    rw [show 2 = 1 + 1 from rfl, ← List.map_add_range' 1, List.map_map]
    apply List.map_congr_left
    intro back hback
    obtain ⟨hlow, hhigh⟩ := List.mem_range'_1.mp hback
    rw [Function.comp_apply, Nat.add_comm 1 back, entry_push_succ hr x (by omega) (by omega)]
  have htake : (List.range' 1 r.count).take m = List.range' 1 (min r.count m) := by
    obtain hle | hge := Nat.le_total r.count m
    · rw [List.take_range'_of_length_le hle, Nat.min_eq_left hle]
    · rw [List.take_range'_of_length_ge hge, Nat.min_eq_right hge]
  rw [window, hcount, List.range'_succ, List.map_cons, entry_push_one hr, List.take_succ_cons,
    window, ← List.map_take, htake, hrest]

/-- After a stream the window is its end. -/
theorem window_foldl_push (hr : r.Valid n) (xs : List α) :
    (xs.foldl (Recent.push n) r).window n = (xs.reverse ++ r.window n).take n := by
  induction xs generalizing r with
  | nil =>
    rw [List.foldl_nil, List.reverse_nil, List.nil_append]
    exact (List.take_of_length_le (by rw [length_window]; exact hr.count_le)).symm
  | cons x xs ih =>
    rw [List.foldl_cons, ih (hr.push x), window_push hr, List.reverse_cons, List.append_assoc,
      List.singleton_append, List.take_append, List.take_append, List.take_take,
      Nat.min_eq_left (Nat.sub_le _ _)]

/-! ### Streams that are cleared -/

/-- The array holds what the stream `xs` ended with. -/
structure Last (n : ℕ) (r : Recent α) (xs : List α) : Prop where
  valid : r.Valid n
  window_eq : r.window n = xs.reverse.take n

theorem last_of_empty (hn : 0 < n) (hcount : r.count = 0) (hwr : r.wr = 0) : r.Last n [] where
  valid := ⟨hwr ▸ hn, hcount ▸ Nat.zero_le n⟩
  window_eq := by
    rw [window, hcount, List.reverse_nil, List.take_nil]
    rfl

theorem Last.push {xs : List α} (h : r.Last n xs) (x : α) : (r.push n x).Last n (xs ++ [x]) where
  valid := h.valid.push x
  window_eq := by
    rw [window_push h.valid, h.window_eq, List.reverse_append, List.reverse_singleton,
      List.singleton_append]
    cases n with
    | zero => rfl
    | succ n => rw [List.take_succ_cons, List.take_succ_cons, List.take_take,
        Nat.min_eq_left (Nat.le_succ n)]

theorem Last.count_eq {xs : List α} (h : r.Last n xs) : r.count = min n xs.length := by
  rw [← length_window (n := n), h.window_eq, List.length_take, List.length_reverse]

/-- The `k`-th entry is the `k`-th from the end of the stream. -/
theorem Last.entry_eq {xs : List α} (h : r.Last n xs) {k : ℕ} (hpos : 1 ≤ k) (hk : k ≤ r.count) :
    xs.reverse[k - 1]? = some (r.entry n k) := by
  have hle := h.valid.count_le
  have hget : (r.window n)[k - 1]? = some (r.entry n k) := by
    rw [window, List.getElem?_map, List.getElem?_range' (by omega), Option.map_some,
      Nat.one_mul, Nat.add_sub_cancel' hpos]
  rw [← hget, h.window_eq, List.getElem?_take, if_pos (by omega)]

end Recent

/-! ### Streams in which an immediate repetition does not count -/

section Fresh

variable {n : ℕ}

theorem getLast?_rtake {l : List α} (hn : 0 < n) : (l.rtake n).getLast? = l.getLast? := by
  rw [List.rtake_eq_reverse_take_reverse, List.getLast?_reverse, List.head?_take, if_neg (by omega),
    List.head?_reverse]

variable [DecidableEq α]

/-- The last `n` entries of a stream without its immediate repetitions, the oldest first. -/
def freshEnd (n : ℕ) (l : List α) : List α := (l.destutter (· ≠ ·)).rtake n

/-- An entry at the end of a list that keeps its last `n`. -/
def pushFresh (n : ℕ) (l : List α) (x : α) : List α :=
  if l.getLast? = some x then l else (if n ≤ l.length then l.tail else l) ++ [x]

theorem destutter'_concat (a : α) (l : List α) (x : α) :
    (l ++ [x]).destutter' (· ≠ ·) a = if (l.destutter' (· ≠ ·) a).getLast? = some x
      then l.destutter' (· ≠ ·) a else l.destutter' (· ≠ ·) a ++ [x] := by
  induction l generalizing a with
  | nil =>
    rw [List.nil_append, List.destutter'_singleton, List.destutter'_nil, List.getLast?_singleton]
    by_cases heq : a = x
    · rw [if_neg (not_not.mpr heq), if_pos (congrArg some heq)]
    · rw [if_pos heq, if_neg (fun hsome ↦ heq (Option.some.inj hsome))]
      rfl
  | cons b l ih =>
    rw [List.cons_append, List.destutter'_cons, List.destutter'_cons]
    by_cases hne : a ≠ b
    · have hlast : (a :: l.destutter' (· ≠ ·) b).getLast? = (l.destutter' (· ≠ ·) b).getLast? :=
        List.getLast?_cons_of_ne_nil (List.destutter'_ne_nil l _)
      rw [if_pos hne, if_pos hne, ih, hlast]
      split_ifs <;> rfl
    · rw [if_neg hne, if_neg hne, ih]

theorem destutter_concat (l : List α) (x : α) :
    (l ++ [x]).destutter (· ≠ ·) = if (l.destutter (· ≠ ·)).getLast? = some x
      then l.destutter (· ≠ ·) else l.destutter (· ≠ ·) ++ [x] := by
  cases l with
  | nil => rfl
  | cons a l => exact destutter'_concat a l x

/-- What a stream ends with after one more entry. -/
theorem freshEnd_concat (hn : 0 < n) (l : List α) (x : α) :
    freshEnd n (l ++ [x]) = pushFresh n (freshEnd n l) x := by
  obtain ⟨n, rfl⟩ : ∃ k, n = k + 1 := ⟨n - 1, by omega⟩
  unfold freshEnd pushFresh
  rw [destutter_concat, getLast?_rtake (Nat.succ_pos n)]
  generalize l.destutter (· ≠ ·) = d
  split_ifs with hlast hfull
  · rfl
  · rw [List.rtake_concat_succ, List.rtake, List.rtake, List.tail_drop]
    rw [List.rtake, List.length_drop] at hfull
    rw [show d.length - (n + 1) + 1 = d.length - n by omega]
  · rw [List.rtake_concat_succ, List.rtake, List.rtake]
    rw [List.rtake, List.length_drop] at hfull
    rw [show d.length - n = 0 by omega, show d.length - (n + 1) = 0 by omega]

end Fresh

end NoOsKernel.Lib
