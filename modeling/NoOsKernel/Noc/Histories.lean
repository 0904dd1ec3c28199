import NoOsKernel.Noc.Predict

/-!
# The histories of the predictors

The command history and the page history after any calls that add an entry or clear them: both hold
the last 256 entries since the last clear, the page history the numbers of the pages and the command
history what fits a row of it.
-/

set_option autoImplicit false
set_option relaxedAutoImplicit false

namespace NoOsKernel.Noc

open Lib Mm Fs

/-! ### Commands -/

/-- `cmdhist_add` and `cmdhist_clear`. -/
inductive CmdOp
  | add (cmd : CStr)
  | clear

def cmdStep (h : CmdHist) : CmdOp → CmdHist
  | .add cmd => cmdhistAdd h cmd
  | .clear => cmdhistClear h

/-- The commands that are recorded since the last clear, the newest at the end. -/
def recordedStep (cmds : List CStr) : CmdOp → List CStr
  | .add cmd => if cmd = [] ∨ isMeta cmd then cmds else cmds ++ [cmd]
  | .clear => []

def recordedCmds (ops : List CmdOp) : List CStr := ops.foldl recordedStep []

/-- The history at boot, and after any calls. -/
def cmdRun (ops : List CmdOp) : CmdHist := ops.foldl cmdStep ⟨fun _ ↦ [], 0, 0⟩

theorem last_cmdRun (ops : List CmdOp) :
    (cmdRun ops).Last cmdhistMax ((recordedCmds ops).map fun cmd ↦ cmd.take (cmdLen - 1)) := by
  induction ops using List.reverseRecOn with
  | nil => exact Recent.last_of_empty (by decide) rfl rfl
  | append_singleton ops op ih =>
    rw [cmdRun, recordedCmds, List.foldl_append, List.foldl_append, ← cmdRun, ← recordedCmds]
    cases op with
    | clear => exact Recent.last_of_empty (by decide) rfl rfl
    | add cmd =>
      simp only [List.foldl_cons, List.foldl_nil, cmdStep, recordedStep, cmdhistAdd]
      split_ifs
      · exact ih
      · rw [List.map_append]
        exact ih.push _

/-! ### Pages -/

/-- `pgpred_fault` and `pgpred_clear`. -/
inductive PageOp
  | fault (vaddr : ℕ)
  | clear

def pageStep (h : PgHist) : PageOp → PgHist
  | .fault vaddr => pgpredFault h vaddr
  | .clear => pgpredClear h

/-- The pages that faulted since the last clear, the newest at the end. -/
def faultedStep (pages : List ℕ) : PageOp → List ℕ
  | .fault vaddr => pages ++ [vaddr / 2 ^ 12]
  | .clear => []

def faultedPages (ops : List PageOp) : List ℕ := ops.foldl faultedStep []

def pageRun (ops : List PageOp) : PgHist := ops.foldl pageStep PgHist.empty

theorem last_pageRun (ops : List PageOp) : (pageRun ops).pfns.length = pghistMax ∧
    (pageRing (pageRun ops)).Last pghistMax (faultedPages ops) := by
  induction ops using List.reverseRecOn with
  | nil => exact ⟨List.length_replicate .., Recent.last_of_empty (by decide) rfl rfl⟩
  | append_singleton ops op ih =>
    obtain ⟨hlen, hlast⟩ := ih
    rw [pageRun, faultedPages, List.foldl_append, List.foldl_append, ← pageRun, ← faultedPages]
    cases op with
    | clear => exact ⟨hlen, Recent.last_of_empty (by decide) rfl rfl⟩
    | fault vaddr =>
      simp only [List.foldl_cons, List.foldl_nil, pageStep, faultedStep]
      constructor
      · rw [pgpredFault, List.length_set, hlen]
      · rw [pageRing_pgpredFault (hlen ▸ hlast.valid.wr_lt)]
        exact hlast.push _

/-! ### Both histories -/

/-- A history has the last 256 recorded entries, and reads back the `k`-th most recent one. -/
theorem histories_window (cmdOps : List CmdOp) (pageOps : List PageOp) :
    ((cmdRun cmdOps).count = min 256 (recordedCmds cmdOps).length ∧
      ∀ k, 1 ≤ k → k ≤ (cmdRun cmdOps).count → ∃ cmd,
        (recordedCmds cmdOps).reverse[k - 1]? = some cmd ∧
          cmdhistEntry (cmdRun cmdOps) k = some (cmd.take 127)) ∧
    ((pageRun pageOps).count = min 256 (faultedPages pageOps).length ∧
      ∀ k, 1 ≤ k → k ≤ (pageRun pageOps).count →
        (faultedPages pageOps).reverse[k - 1]? = some (pgpredEntry (pageRun pageOps) k)) := by
  have hcmds := last_cmdRun cmdOps
  obtain ⟨-, hpages⟩ := last_pageRun pageOps
  refine ⟨⟨?_, fun k hpos hk ↦ ?_⟩, hpages.count_eq, fun k hpos hk ↦ ?_⟩
  · rw [hcmds.count_eq, List.length_map]
    rfl
  · have hentry := hcmds.entry_eq hpos hk
    rw [← List.map_reverse, List.getElem?_map, Option.map_eq_some_iff] at hentry
    obtain ⟨cmd, hcmd, htake⟩ := hentry
    refine ⟨cmd, hcmd, ?_⟩
    rw [cmdhistEntry, if_neg (by omega), ← htake]
    rfl
  · rw [pgpredEntry, if_neg (by omega)]
    exact hpages.entry_eq hpos hk

end NoOsKernel.Noc
