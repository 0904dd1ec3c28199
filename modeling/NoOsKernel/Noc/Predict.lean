import Mathlib.Data.List.DropRight
import NoOsKernel.Fs.Shell
import NoOsKernel.Lib.Bigram
import NoOsKernel.Lib.Recent
import NoOsKernel.Mm.Pgpred

/-!
# The bigram predictors

`kernel/noc/predict.c`: the history of typed commands, and the command that is predicted to follow
the last one. The page predictor of `kernel/mm/pgpred.c` is the same algorithm over the numbers of
faulting pages. Both keep the last entries of a stream and tally them from the newest back.
-/

set_option autoImplicit false
set_option relaxedAutoImplicit false

namespace NoOsKernel.Noc

open Lib Lib.Tally Fs Mm

/-! ### The command history -/

/-- `CMDHIST_MAX` -/
def cmdhistMax : ℕ := 256

/-- `CMD_LEN` -/
def cmdLen : ℕ := 128

/-- The lower case of a letter. -/
def lowerCase (c : Byte) : Byte := if 0x41 ≤ c ∧ c ≤ 0x5a then c + 0x20 else c

/-- `metas` -/
def metas : List CStr := [ascii "predict", ascii "hist", ascii "clearhist"]

/-- `is_meta`: a semicolon at the end and the case of letters do not matter. -/
def isMeta (cmd : CStr) : Bool :=
  let n := if 0 < cmd.length ∧ cmd.getLast? = some 0x3b then cmd.length - 1 else cmd.length
  if n ≠ 7 ∧ n ≠ 4 ∧ n ≠ 9 then false
  else metas.any fun m ↦ m.length = n ∧ (cmd.take n).map lowerCase = m

/-- `hist`, `hist_count` and `hist_wr` -/
abbrev CmdHist := Recent CStr

/-- `cmdhist_add`: an entry keeps what fits its row. -/
def cmdhistAdd (h : CmdHist) (cmd : CStr) : CmdHist :=
  if cmd = [] ∨ isMeta cmd then h else h.push cmdhistMax (cmd.take (cmdLen - 1))

/-- `cmdhist_clear` -/
def cmdhistClear (h : CmdHist) : CmdHist := ⟨h.cells, 0, 0⟩

/-- `cmdhist_entry` -/
def cmdhistEntry (h : CmdHist) (back : ℕ) : Option CStr :=
  if back < 1 ∨ h.count < back then none else some (h.entry cmdhistMax back)

/-- `cmdhist_predict` -/
def cmdhistPredict (h : CmdHist) : Option CStr :=
  if h.count = 0 then none else predict (h.entry cmdhistMax) h.count

/-! ### The window of a history -/

/-- The last commands that were entered, the newest at the end. -/
def cmdWindow (cmds : List CStr) : List CStr :=
  ((cmds.filter fun cmd ↦ ¬ (cmd = [] ∨ isMeta cmd)).map fun cmd ↦ cmd.take (cmdLen - 1)).rtake
    cmdhistMax

/-- The last pages that faulted, the newest at the end. -/
def pageWindow (faults : List ℕ) : List ℕ := (faults.map fun va ↦ va / 2 ^ 12).rtake pghistMax

/-- Entering commands pushes what the history keeps of them. -/
theorem foldl_cmdhistAdd (h : CmdHist) (cmds : List CStr) :
    cmds.foldl cmdhistAdd h = ((cmds.filter fun cmd ↦ ¬ (cmd = [] ∨ isMeta cmd)).map
      fun cmd ↦ cmd.take (cmdLen - 1)).foldl (Recent.push cmdhistMax) h := by
  rw [List.foldl_map, List.foldl_filter]
  congr 1
  funext h cmd
  rw [cmdhistAdd]
  simp only [decide_eq_true_eq, ite_not]

theorem valid_cmdhistClear (h : CmdHist) : (cmdhistClear h).Valid cmdhistMax :=
  ⟨Nat.zero_lt_succ _, Nat.zero_le _⟩

/-- The entries of a history are its window, read back. -/
theorem window_cmdhist (h : CmdHist) (cmds : List CStr) :
    ((cmds.foldl cmdhistAdd (cmdhistClear h)).window cmdhistMax).reverse = cmdWindow cmds := by
  rw [foldl_cmdhistAdd, Recent.window_foldl_push (valid_cmdhistClear h), cmdWindow,
    List.rtake_eq_reverse_take_reverse]
  change (List.take cmdhistMax (_ ++ [])).reverse = _
  rw [List.append_nil]

/-! ### The page history -/

/-- The page history as a ring. -/
def pageRing (h : PgHist) : Recent ℕ := ⟨fun k ↦ h.pfns.getD k 0, h.count, h.wr⟩

/-- A fault pushes its page. -/
theorem pageRing_pgpredFault {h : PgHist} (hwr : h.wr < h.pfns.length) (va : ℕ) :
    pageRing (pgpredFault h va) = (pageRing h).push pghistMax (va / 2 ^ 12) := by
  have hcells : (fun k ↦ (h.pfns.set h.wr (va / 2 ^ 12)).getD k 0) =
      Function.update (fun k ↦ h.pfns.getD k 0) h.wr (va / 2 ^ 12) := by
    funext k
    rw [List.getD_eq_getElem?_getD, List.getElem?_set]
    by_cases hk : h.wr = k
    · rw [if_pos hk, if_pos hwr, ← hk, Function.update_self, Option.getD_some]
    · rw [if_neg hk, Function.update_of_ne (Ne.symm hk), List.getD_eq_getElem?_getD]
  rw [pageRing, pgpredFault, Recent.push, hcells]
  rfl

theorem pageRing_foldl_pgpredFault (faults : List ℕ) {h : PgHist} (hlen : h.pfns.length = pghistMax)
    (hvalid : (pageRing h).Valid pghistMax) :
    pageRing (faults.foldl pgpredFault h) =
      (faults.map fun va ↦ va / 2 ^ 12).foldl (Recent.push pghistMax) (pageRing h) := by
  induction faults generalizing h with
  | nil => rfl
  | cons va faults ih =>
    have hpush := pageRing_pgpredFault (hlen ▸ hvalid.wr_lt) va
    rw [List.foldl_cons, List.map_cons, List.foldl_cons, ← hpush]
    apply ih
    · rw [pgpredFault, List.length_set, hlen]
    · rw [hpush]
      exact hvalid.push _

/-- The entries of a page history are its window, read back. -/
theorem window_pghist (faults : List ℕ) :
    ((List.range' 1 (faults.foldl pgpredFault PgHist.empty).count).map
      (pgpredEntry (faults.foldl pgpredFault PgHist.empty))).reverse = pageWindow faults := by
  have hring : pageRing (faults.foldl pgpredFault PgHist.empty) = _ :=
    pageRing_foldl_pgpredFault faults (List.length_replicate ..) ⟨by decide, Nat.zero_le _⟩
  generalize faults.foldl pgpredFault PgHist.empty = h at hring ⊢
  have hentries : (List.range' 1 h.count).map (pgpredEntry h) =
      (pageRing h).window pghistMax := by
    apply List.map_congr_left
    intro back hback
    have := List.mem_range'_1.mp hback
    rw [pgpredEntry, if_neg (by omega)]
    rfl
  have hvalid : (pageRing PgHist.empty).Valid pghistMax := ⟨by decide, Nat.zero_le _⟩
  rw [hentries, hring, Recent.window_foldl_push hvalid, pageWindow,
    List.rtake_eq_reverse_take_reverse]
  change (List.take pghistMax (_ ++ [])).reverse = _
  rw [List.append_nil]

/-- A candidate of the page predictor. -/
def toCandidate (c : Cand) : Candidate ℕ := ⟨c.pfn, c.cnt, c.recent⟩

theorem map_countCand (cands : List Cand) (pfn recent : ℕ) :
    (countCand cands pfn recent).map toCandidate = note (cands.map toCandidate) pfn recent := by
  have hsame : cands.findIdx? ((fun c ↦ c.value == pfn) ∘ toCandidate) =
      cands.findIdx? fun c ↦ c.pfn == pfn := rfl
  rw [countCand, note, List.findIdx?_map, hsame]
  cases cands.findIdx? fun c ↦ c.pfn == pfn with
  | none => rw [List.map_append, List.map_singleton]; rfl
  | some k =>
    apply List.ext_getElem?
    intro j
    rw [List.getElem?_map, List.getElem?_modify, List.getElem?_modify, List.getElem?_map]
    split_ifs with hj
    · cases cands[j]? <;> rfl
    · cases cands[j]? <;> rfl

theorem foldl_best (rest : List Cand) (c : Cand) :
    toCandidate (rest.foldl (fun best c ↦
      if best.cnt < c.cnt ∨ (c.cnt = best.cnt ∧ best.recent < c.recent) then c else best) c) =
      (rest.map toCandidate).foldl better (toCandidate c) := by
  induction rest generalizing c with
  | nil => rfl
  | cons d rest ih =>
    rw [List.foldl_cons, List.map_cons, List.foldl_cons, ih, better, apply_ite toCandidate]
    rfl

/-- The page that is picked is the best candidate. -/
theorem pickBest_eq (cands : List Cand) :
    pickBest cands = (pick (cands.map toCandidate)).getD 0 := by
  cases cands with
  | nil => rfl
  | cons c rest =>
    rw [List.map_cons, pick, Option.getD_some, ← foldl_best]
    rfl

/-- The candidates of the first pass. -/
theorem map_followers (h : PgHist) :
    (Mm.followers h).map toCandidate = bigramPass (pgpredEntry h) h.count := by
  rw [Mm.followers, bigramPass, ← List.map_nil (f := toCandidate)]
  generalize ([] : List Cand) = cands
  generalize List.range' 1 (h.count - 1) = places
  induction places generalizing cands with
  | nil => rfl
  | cons i places ih =>
    rw [List.foldl_cons, List.foldl_cons, ih, apply_ite (List.map toCandidate), map_countCand]

/-- The candidates of the second pass. -/
theorem map_unigrams (h : PgHist) :
    (unigrams h).map toCandidate = unigramPass (pgpredEntry h) h.count := by
  rw [unigrams, unigramPass, ← List.map_nil (f := toCandidate)]
  generalize ([] : List Cand) = cands
  generalize List.range' 1 h.count = places
  induction places generalizing cands with
  | nil => rfl
  | cons i places ih => rw [List.foldl_cons, List.foldl_cons, ih, map_countCand]

/-- Page zero apart, the page predictor is the prediction from bigrams. -/
theorem pgpredPredict_eq {h : PgHist} (hcount : h.count ≠ 0)
    (hpages : ∀ page ∈ ((List.range' 1 h.count).map (pgpredEntry h)).reverse, page ≠ 0) :
    pgpredPredict h = (predict (pgpredEntry h) h.count).getD 0 := by
  rw [pgpredPredict, if_neg hcount, pickBest_eq, map_followers, pickBest_eq, map_unigrams, predict]
  obtain ⟨seen, hpass, hseen, hstamps⟩ := bigramPass_eq (pgpredEntry h) h.count
  by_cases hnone : seen.map Prod.fst = []
  · rw [hpass, pick_tally_eq_none hnone, Option.getD_none, if_neg (by omega)]
  · obtain ⟨page, hpick, hwins⟩ := pick_tally hstamps hnone
    have hpage : page ≠ 0 := by
      have hmem := hwins.1
      rw [hseen] at hmem
      exact hpages page (mem_of_mem_followers hmem)
    rw [hpass, hpick, Option.getD_some, if_pos hpage]

/-! ### The predictions -/

/-- Both predictors return the best candidate exactly if its first and its last occurrence agree
about it. -/
theorem predictors_best_iff (h : CmdHist) (cmds : List CStr) (faults : List ℕ)
    (hpages : ∀ page ∈ pageWindow faults, page ≠ 0) :
    (Predicts (cmdWindow cmds) (cmdhistPredict (cmds.foldl cmdhistAdd (cmdhistClear h))) ↔
      (cmdWindow cmds ≠ [] → FirstsAgree (candidates (cmdWindow cmds)))) ∧
    (Predicts (pageWindow faults) (some (pgpredPredict (faults.foldl pgpredFault PgHist.empty))) ↔
      (pageWindow faults ≠ [] → FirstsAgree (candidates (pageWindow faults)))) := by
  constructor
  · rw [← window_cmdhist h]
    generalize cmds.foldl cmdhistAdd (cmdhistClear h) = h'
    have hiff := predicts_predict_iff (h'.entry cmdhistMax) h'.count
    by_cases hcount : h'.count = 0
    · rw [Recent.window, hcount]
      exact ⟨fun _ hne ↦ absurd rfl hne, fun _ hne ↦ absurd rfl hne⟩
    · rw [cmdhistPredict, if_neg hcount]
      exact hiff
  · rw [← window_pghist] at hpages ⊢
    generalize faults.foldl pgpredFault PgHist.empty = h' at hpages ⊢
    by_cases hcount : h'.count = 0
    · rw [hcount]
      exact ⟨fun _ hne ↦ absurd rfl hne, fun _ hne ↦ absurd rfl hne⟩
    · obtain ⟨page, hpredict, -⟩ := predict_spec (pgpredEntry h') (Nat.pos_of_ne_zero hcount)
      have hpredicts := predicts_predict_iff (pgpredEntry h') h'.count
      rw [pgpredPredict_eq hcount hpages, hpredict, Option.getD_some, ← hpredict]
      exact hpredicts

/-- `b` and `c` follow `a`, and two pages another one: the newer of the two is predicted. -/
theorem predictors_best_iff_followers :
    Predicts (cmdWindow (["a", "b", "a", "c", "a"].map ascii)) (cmdhistPredict
        ((["a", "b", "a", "c", "a"].map ascii).foldl cmdhistAdd (cmdhistClear ⟨fun _ ↦ [], 0, 0⟩))) ∧
      Predicts (pageWindow [0x1000, 0x2000, 0x1000, 0x3000, 0x1000])
        (some (pgpredPredict
          ([0x1000, 0x2000, 0x1000, 0x3000, 0x1000].foldl pgpredFault PgHist.empty))) := by
  obtain ⟨hcmd, hpage⟩ := predictors_best_iff ⟨fun _ ↦ [], 0, 0⟩
    (["a", "b", "a", "c", "a"].map ascii) [0x1000, 0x2000, 0x1000, 0x3000, 0x1000] (by decide)
  exact ⟨hcmd.mpr fun _ ↦ ⟨ascii "c", ⟨by decide, by decide⟩, by decide, by decide⟩,
    hpage.mpr fun _ ↦ ⟨3, ⟨by decide, by decide⟩, by decide, by decide⟩⟩

/-- Two commands follow another one twice each: the one that followed it first and last is not the
one that is predicted. -/
theorem tied_followers_predict_older :
    ¬ Predicts (cmdWindow (["a", "b", "a", "c", "a", "c", "a", "b", "a"].map ascii))
      (cmdhistPredict ((["a", "b", "a", "c", "a", "c", "a", "b", "a"].map ascii).foldl cmdhistAdd
        (cmdhistClear ⟨fun _ ↦ [], 0, 0⟩))) := by
  have hpredict : cmdhistPredict ((["a", "b", "a", "c", "a", "c", "a", "b", "a"].map ascii).foldl
      cmdhistAdd (cmdhistClear ⟨fun _ ↦ [], 0, 0⟩)) = some (ascii "c") := by
    decide +kernel
  intro h
  obtain ⟨y, hy, -, hwins⟩ := h (by decide)
  rw [hpredict] at hy
  obtain rfl := Option.some.inj hy
  exact absurd (hwins (ascii "b") (by decide)) (by decide)

end NoOsKernel.Noc
