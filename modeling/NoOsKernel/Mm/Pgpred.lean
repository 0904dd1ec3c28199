import Mathlib.Algebra.Order.Group.Nat
import Mathlib.Tactic.Common

/-!
# The page-access predictor

`kernel/mm/pgpred.c`: a ring of the last 256 faulting pages, and the page that most often followed
the most recent one, the newest among equals, with the most frequent page as fallback.
-/

set_option autoImplicit false
set_option relaxedAutoImplicit false

namespace NoOsKernel.Mm

/-- `PGHIST_MAX`. -/
def pghistMax : ℕ := 256

/-- `pfns`, `count` and `wr`. -/
structure PgHist where
  pfns : List ℕ
  count : ℕ
  wr : ℕ

/-- The history at boot. -/
def PgHist.empty : PgHist := ⟨List.replicate pghistMax 0, 0, 0⟩

/-- `cand_t`. -/
structure Cand where
  pfn : ℕ
  cnt : ℕ
  recent : ℕ

/-- `pgpred_fault`. -/
def pgpredFault (h : PgHist) (va : ℕ) : PgHist where
  pfns := h.pfns.set h.wr (va / 2 ^ 12)
  count := if h.count < pghistMax then h.count + 1 else h.count
  wr := (h.wr + 1) % pghistMax

/-- `pgpred_clear`. -/
def pgpredClear (h : PgHist) : PgHist := { h with count := 0, wr := 0 }

/-- `pgpred_entry`. -/
def pgpredEntry (h : PgHist) (back : ℕ) : ℕ :=
  if back < 1 ∨ h.count < back then 0
  else h.pfns.getD ((h.wr + pghistMax - back) % pghistMax) 0

/-- Counting one more occurrence of a page, seen at a position of the stream. -/
def countCand (cands : List Cand) (pfn recent : ℕ) : List Cand :=
  match cands.findIdx? fun c ↦ c.pfn == pfn with
  | none => cands ++ [⟨pfn, 1, recent⟩]
  | some k => cands.modify k fun c ↦ { c with cnt := c.cnt + 1, recent := recent }

/-- `pick_best`. -/
def pickBest : List Cand → ℕ
  | [] => 0
  | c :: rest =>
    (rest.foldl (fun best c ↦
      if best.cnt < c.cnt ∨ (c.cnt = best.cnt ∧ best.recent < c.recent) then c else best) c).pfn

/-- The followers of the most recent page. -/
def followers (h : PgHist) : List Cand :=
  (List.range' 1 (h.count - 1)).foldl (fun cands i ↦
    if pgpredEntry h (i + 1) ≠ pgpredEntry h 1 then cands
    else countCand cands (pgpredEntry h i) (h.count - i)) []

/-- All pages of the history. -/
def unigrams (h : PgHist) : List Cand :=
  (List.range' 1 h.count).foldl (fun cands i ↦
    countCand cands (pgpredEntry h i) (h.count - i + 1)) []

/-- `pgpred_predict`. -/
def pgpredPredict (h : PgHist) : ℕ :=
  if h.count = 0 then 0
  else if pickBest (followers h) ≠ 0 then pickBest (followers h)
  else pickBest (unigrams h)

end NoOsKernel.Mm
