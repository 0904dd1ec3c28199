import Mathlib.Tactic.Common

/-!
# Singly linked lists in a memory

Nodes have addresses, `0` is the null pointer, and `next` is the pointer a node stores. `Seg` says
that following `next` from a pointer visits the given nodes in order and then arrives at another
pointer; with the null pointer at its end it is a whole list, and so one without a cycle. Changing
the links of nodes outside a segment leaves the segment alone (`Seg.congr`), and segments are cut
and joined by `seg_append`.
-/

set_option autoImplicit false
set_option relaxedAutoImplicit false

namespace NoOsKernel.Lib

variable {α : Type*}

/-- From `p` the links lead through the nodes `as`, each of which satisfies `node`, to `q`. -/
def Seg (addr : α → ℕ) (next : ℕ → ℕ) (node : α → Prop) : ℕ → List α → ℕ → Prop
  | p, [], q => p = q
  | p, a :: as, q => p = addr a ∧ addr a ≠ 0 ∧ node a ∧ Seg addr next node (next (addr a)) as q

variable {addr : α → ℕ} {next next' : ℕ → ℕ} {node node' : α → Prop} {p q : ℕ} {as bs : List α}

theorem seg_append : Seg addr next node p (as ++ bs) q ↔
    ∃ r, Seg addr next node p as r ∧ Seg addr next node r bs q := by
  induction as generalizing p with
  | nil =>
    constructor
    · intro h
      exact ⟨p, rfl, h⟩
    · rintro ⟨r, rfl, h⟩
      exact h
  | cons a as ih =>
    constructor
    · rintro ⟨hp, hnull, hnode, hrest⟩
      obtain ⟨r, hfirst, hsecond⟩ := ih.mp hrest
      exact ⟨r, ⟨hp, hnull, hnode, hfirst⟩, hsecond⟩
    · rintro ⟨r, ⟨hp, hnull, hnode, hfirst⟩, hsecond⟩
      exact ⟨hp, hnull, hnode, ih.mpr ⟨r, hfirst, hsecond⟩⟩

/-- A segment depends only on its own nodes and their links. -/
theorem Seg.congr (h : Seg addr next node p as q)
    (hsame : ∀ a ∈ as, next' (addr a) = next (addr a) ∧ (node a → node' a)) :
    Seg addr next' node' p as q := by
  induction as generalizing p with
  | nil => exact h
  | cons a as ih =>
    obtain ⟨hp, hnull, hnode, hrest⟩ := h
    obtain ⟨hlink, hkeep⟩ := hsame a List.mem_cons_self
    refine ⟨hp, hnull, hkeep hnode, ?_⟩
    rw [hlink]
    exact ih hrest fun b hb ↦ hsame b (List.mem_cons_of_mem a hb)

theorem Seg.nodes (h : Seg addr next node p as q) : ∀ a ∈ as, addr a ≠ 0 ∧ node a := by
  induction as generalizing p with
  | nil => exact fun a ha ↦ absurd ha List.not_mem_nil
  | cons a as ih =>
    obtain ⟨-, hnull, hnode, hrest⟩ := h
    intro b hb
    rcases List.mem_cons.mp hb with rfl | hb
    · exact ⟨hnull, hnode⟩
    · exact ih hrest b hb

/-- Where a node of a list stands: the segment before it, and its own link. -/
theorem Seg.split {a : α} (h : Seg addr next node p (as ++ a :: bs) q) :
    Seg addr next node p as (addr a) ∧ addr a ≠ 0 ∧ node a ∧
      Seg addr next node (next (addr a)) bs q := by
  obtain ⟨r, hfirst, rfl, hnull, hnode, hrest⟩ := seg_append.mp h
  exact ⟨hfirst, hnull, hnode, hrest⟩

/-- The first pointer is null exactly for the empty list. -/
theorem Seg.eq_zero_iff (h : Seg addr next node p as 0) : p = 0 ↔ as = [] := by
  cases as with
  | nil => exact ⟨fun _ ↦ rfl, fun _ ↦ h⟩
  | cons a as => exact ⟨fun hp ↦ absurd (h.1.symm.trans hp) h.2.1, nofun⟩

/-! ### Walks -/

/-- The first node from `p` on whose address satisfies `stop`, or null behind the last one; `none`
while it has not been reached in `fuel` steps. -/
def walk (next : ℕ → ℕ) (stop : ℕ → Bool) : ℕ → ℕ → Option ℕ
  | 0, _ => none
  | fuel + 1, p =>
    if p = 0 then some 0 else if stop p then some p else walk next stop fuel (next p)

/-- A walk arrives at the first node that satisfies `stop`. -/
theorem walk_eq_of_stop {stop : ℕ → Bool} {fuel : ℕ} {a : α}
    (h : Seg addr next node p (as ++ a :: bs) q) (hskip : ∀ x ∈ as, stop (addr x) = false)
    (hstop : stop (addr a) = true) :
    walk next stop fuel p = if as.length < fuel then some (addr a) else none := by
  induction as generalizing p fuel with
  | nil =>
    obtain ⟨rfl, hnull, -⟩ := h
    cases fuel with
    | zero => rfl
    | succ fuel => rw [walk, if_neg hnull, if_pos hstop, List.length_nil, if_pos fuel.succ_pos]
  | cons x as ih =>
    obtain ⟨rfl, hnull, -, hrest⟩ := h
    have hx : ¬ stop (addr x) = true := Bool.not_eq_true _ ▸ hskip x List.mem_cons_self
    cases fuel with
    | zero => rfl
    | succ fuel =>
      rw [walk, if_neg hnull, if_neg hx, ih hrest fun y hy ↦ hskip y (List.mem_cons_of_mem x hy)]
      simp only [List.length_cons, Nat.add_lt_add_iff_right]

/-- A walk that finds no such node arrives at null. -/
theorem walk_eq_zero {stop : ℕ → Bool} {fuel : ℕ} (h : Seg addr next node p as 0)
    (hskip : ∀ x ∈ as, stop (addr x) = false) :
    walk next stop fuel p = if as.length < fuel then some 0 else none := by
  induction as generalizing p fuel with
  | nil =>
    obtain rfl : p = 0 := h
    cases fuel with
    | zero => rfl
    | succ fuel => rw [walk, if_pos rfl, List.length_nil, if_pos fuel.succ_pos]
  | cons x as ih =>
    obtain ⟨rfl, hnull, -, hrest⟩ := h
    have hx : ¬ stop (addr x) = true := Bool.not_eq_true _ ▸ hskip x List.mem_cons_self
    cases fuel with
    | zero => rfl
    | succ fuel =>
      rw [walk, if_neg hnull, if_neg hx, ih hrest fun y hy ↦ hskip y (List.mem_cons_of_mem x hy)]
      simp only [List.length_cons, Nat.add_lt_add_iff_right]

end NoOsKernel.Lib
