import NoOsKernel.Lib.BitCount
import NoOsKernel.Mm.Syscall

/-!
# The model RAM budget

The budget system calls of `kernel/arch/x86_64/syscall.c` and the charges of `kernel/mm/model.c`.
Every resident page is charged 4 KB, commitments are charged on top, and a page comes in only while
the charge stays within the budget. The exception is the product `a1 * 4` of `SYS_MODEL_COMMIT`,
which wraps around in 64 bits: a commitment whose charge passes `2 ^ 64` can be accepted
(`CommitWraps`), and then the counter no longer covers the resident pages.
-/

set_option autoImplicit false
set_option relaxedAutoImplicit false

namespace NoOsKernel.Mm

open Lib

/-! ### Accounting -/

/-- `model_resident_pages` -/
def modelResidentPages (t : Task) : ℕ :=
  match t.modelMap with
  | none => 0
  | some map => setCount (map.take (modelBitmapWords t.modelFramesN))

/-- The value `SYS_MODEL_COMMIT` returns; the state it leaves is `sysModelCommit`. -/
def sysModelCommitRet (k : Kernel) (i pages : ℕ) : BitVec 64 :=
  let t := k.tasks i
  let need := pages * 4 % 2 ^ 64
  if t.modelBudgetKb < (t.modelWeightsKb + need) % 2 ^ 64 then -1 else 0

/-- What a task does with its model window, and what happens elsewhere in the meantime. -/
inductive ModelOp
  | budget (kb : BitVec 64)
  | commit (pages : BitVec 64)
  | touch (pg : BitVec 64) (need : HeapNeed)
  | evict (pg : BitVec 64)
  | fault (cr2 err : BitVec 64) (need : HeapNeed)
  | prefetch (need : HeapNeed)
  | elsewhere (k' : Kernel)

def modelStep (i : ℕ) (k : Kernel) : ModelOp → Kernel
  | .budget kb => sysModelBudget k i kb.toNat
  | .commit pages => sysModelCommit k i pages.toNat
  | .touch pg need => sysModelTouch k i pg.toNat need
  | .evict pg => (modelEvictPage k i pg.toNat).2
  | .fault cr2 err need => (modelDemandFault k i cr2.toNat err.toNat need).2
  | .prefetch need => modelPrefetch k i need
  | .elsewhere k' => k'

/-- The charge passes `2 ^ 64`, and what is left of it is within the budget. -/
def CommitWraps (t : Task) (pages : ℕ) : Prop :=
  2 ^ 64 ≤ t.modelWeightsKb + 4 * pages ∧
    (t.modelWeightsKb + 4 * pages) % 2 ^ 64 ≤ t.modelBudgetKb

instance (t : Task) (pages : ℕ) : Decidable (CommitWraps t pages) :=
  inferInstanceAs (Decidable (_ ∧ _))

/-- No commitment wraps around, and what happens elsewhere leaves the task alone. -/
def Accounted (i : ℕ) (k : Kernel) : ModelOp → Prop
  | .commit pages => ¬ CommitWraps (k.tasks i) pages.toNat
  | .elsewhere k' => k'.tasks i = k.tasks i
  | _ => True

/-- The charge covers the resident pages. The bitmap has the words its size asks for, and neither
number leaves its range. -/
structure Charged (t : Task) : Prop where
  budget : t.modelBudgetKb ≤ 65536
  weights : t.modelWeightsKb ≤ 65536
  covered : 4 * modelResidentPages t ≤ t.modelWeightsKb
  words : ∀ map ∈ t.modelMap, map.length = modelBitmapWords t.modelFramesN

/-! ### The bitmap -/

theorem modelResidentPages_eq {t : Task} (ht : Charged t) {map : List (BitVec 32)}
    (hmap : t.modelMap = some map) : modelResidentPages t = setCount map := by
  rw [modelResidentPages, hmap]
  simp only
  rw [List.take_of_length_le (ht.words map hmap).le]

theorem lt_bitLen {map : List (BitVec 32)} {n pg : ℕ} (hlen : map.length = modelBitmapWords n)
    (hpg : pg < n) : pg < bitLen map := by
  rw [bitLen, hlen, modelBitmapWords]
  omega

/-! ### What a step does to the account -/

/-- What every step guarantees: the charge still covers the resident pages, and a page that has
come in is within the budget. -/
structure Honest (t t' : Task) : Prop where
  charged : Charged t'
  paid : ∀ pg, modelPageResident t pg = false → modelPageResident t' pg = true →
    t'.modelWeightsKb ≤ t'.modelBudgetKb

/-- A step that brings no page in. -/
theorem Honest.of_fewer {t t' : Task} (ht' : Charged t')
    (hfewer : ∀ pg, modelPageResident t' pg = true → modelPageResident t pg = true) :
    Honest t t' := by
  refine ⟨ht', fun pg hout hin ↦ ?_⟩
  rw [hfewer pg hin] at hout
  cases hout

theorem Honest.refl {t : Task} (ht : Charged t) : Honest t t := .of_fewer ht fun _ h ↦ h

@[simp] theorem setTask_tasks_same (k : Kernel) (i : ℕ) (t : Task) : (k.setTask i t).tasks i = t :=
  Function.update_self ..

theorem honest_budget {k : Kernel} {i : ℕ} (ht : Charged (k.tasks i)) (kb : ℕ) :
    Honest (k.tasks i) ((sysModelBudget k i kb).tasks i) := by
  rw [sysModelBudget, setTask_tasks_same]
  refine .of_fewer { ht with budget := ?_ } fun _ h ↦ h
  change (if 65536 < kb then 65536 else kb) ≤ 65536
  split_ifs <;> omega

/-- The sum the commitment tests. -/
theorem commit_sum (t : Task) (pages : ℕ) :
    (t.modelWeightsKb + pages * 4 % 2 ^ 64) % 2 ^ 64 =
      (t.modelWeightsKb + 4 * pages) % 2 ^ 64 := by
  rw [Nat.add_mod_mod, Nat.mul_comm]

/-- A commitment returns `0` exactly when the sum in 64 bits is within the budget. -/
theorem commitRet_eq_zero_iff (k : Kernel) (i pages : ℕ) :
    sysModelCommitRet k i pages = 0 ↔
      ((k.tasks i).modelWeightsKb + 4 * pages) % 2 ^ 64 ≤ (k.tasks i).modelBudgetKb := by
  simp only [sysModelCommitRet, commit_sum]
  split_ifs with hover
  · exact iff_of_false (by decide) (by omega)
  · exact iff_of_true rfl (by omega)

/-- What `SYS_MODEL_COMMIT` is to do: `0` exactly when the charge fits, and then the charge. -/
def CommitExact (k : Kernel) (i pages : ℕ) : Prop :=
  (sysModelCommitRet k i pages = 0 ↔
    (k.tasks i).modelWeightsKb + 4 * pages ≤ (k.tasks i).modelBudgetKb) ∧
  (sysModelCommitRet k i pages = 0 →
    ((sysModelCommit k i pages).tasks i).modelWeightsKb = (k.tasks i).modelWeightsKb + 4 * pages)

/-- An accepted commitment that does not wrap around adds its charge. -/
theorem sysModelCommit_of_fits {k : Kernel} {i pages : ℕ} (ht : Charged (k.tasks i))
    (hfits : (k.tasks i).modelWeightsKb + 4 * pages ≤ (k.tasks i).modelBudgetKb) :
    (sysModelCommit k i pages).tasks i =
      { k.tasks i with modelWeightsKb := (k.tasks i).modelWeightsKb + 4 * pages } := by
  have hbudget := ht.budget
  have hneed : pages * 4 % 2 ^ 64 = 4 * pages := by omega
  simp only [sysModelCommit, hneed]
  rw [if_neg (by omega), setTask_tasks_same, show 4 * pages % 2 ^ 32 = 4 * pages by omega,
    Nat.mod_eq_of_lt (by omega)]

/-- The commitment does what it is to do, unless its charge wraps around. -/
theorem commitExact_iff {k : Kernel} {i : ℕ} (ht : Charged (k.tasks i)) (pages : ℕ) :
    CommitExact k i pages ↔ ¬ CommitWraps (k.tasks i) pages := by
  have hbudget := ht.budget
  have hret := commitRet_eq_zero_iff k i pages
  constructor
  · rintro ⟨hiff, -⟩ ⟨hwrap, hmod⟩
    have hfits := hiff.mp (hret.mpr hmod)
    omega
  · intro hwraps
    have hfits : sysModelCommitRet k i pages = 0 ↔
        (k.tasks i).modelWeightsKb + 4 * pages ≤ (k.tasks i).modelBudgetKb := by
      rw [hret]
      constructor
      · intro hmod
        by_contra hover
        apply hwraps
        refine ⟨?_, hmod⟩
        by_contra hsmall
        rw [Nat.mod_eq_of_lt (by omega)] at hmod
        exact hover hmod
      · intro hle
        rwa [Nat.mod_eq_of_lt (by omega)]
    refine ⟨hfits, fun hzero ↦ ?_⟩
    rw [sysModelCommit_of_fits ht (hfits.mp hzero)]

theorem honest_commit {k : Kernel} {i pages : ℕ} (ht : Charged (k.tasks i))
    (hwraps : ¬ CommitWraps (k.tasks i) pages) :
    Honest (k.tasks i) ((sysModelCommit k i pages).tasks i) := by
  have hbudget := ht.budget
  have hcovered := ht.covered
  have hexact := (commitExact_iff ht pages).mpr hwraps
  by_cases hzero : sysModelCommitRet k i pages = 0
  · have hfits := hexact.1.mp hzero
    rw [sysModelCommit_of_fits ht hfits]
    refine .of_fewer { ht with weights := ?_, covered := ?_ } fun _ h ↦ h
    · change (k.tasks i).modelWeightsKb + 4 * pages ≤ 65536
      omega
    · change 4 * modelResidentPages (k.tasks i) ≤ (k.tasks i).modelWeightsKb + 4 * pages
      omega
  · have hover : (k.tasks i).modelBudgetKb <
        ((k.tasks i).modelWeightsKb + pages * 4 % 2 ^ 64) % 2 ^ 64 := by
      by_contra hnot
      exact hzero (if_neg hnot)
    rw [sysModelCommit, if_pos hover]
    exact .refl ht

/-! ### Pages coming in and going out -/

/-- The arrays of a task after `model_ensure_task`: they are the old ones, or empty ones. -/
theorem ensure_spec {k : Kernel} {i : ℕ} (ht : Charged (k.tasks i)) (pages : ℕ)
    (need : HeapNeed) :
    Charged ((modelEnsureTask k i pages need).2.tasks i) ∧
      (∀ pg, modelPageResident ((modelEnsureTask k i pages need).2.tasks i) pg = true →
        modelPageResident (k.tasks i) pg = true) ∧
      ((modelEnsureTask k i pages need).1 = true →
        pages ≤ ((modelEnsureTask k i pages need).2.tasks i).modelFramesN ∧
          ((modelEnsureTask k i pages need).2.tasks i).modelMap.isSome) := by
  simp only [modelEnsureTask]
  split_ifs with hthere hfail
  · simp only [Bool.and_eq_true, decide_eq_true_eq] at hthere
    exact ⟨ht, fun _ h ↦ h, fun _ ↦ ⟨hthere.1.1, hthere.2⟩⟩
  · exact ⟨ht, fun _ h ↦ h, by rintro ⟨⟩⟩
  · rw [setTask_tasks_same]
    refine ⟨⟨ht.budget, ht.weights, ?_, ?_⟩, ?_, fun _ ↦ ⟨le_refl _, rfl⟩⟩
    · simp only [modelResidentPages, List.take_replicate, setCount_replicate_zero]
      omega
    · intro map hmap
      cases hmap
      exact List.length_replicate
    · intro pg hpg
      simp only [modelPageResident, bitGet_replicate_zero] at hpg
      cases hpg

/-- A page outside comes in and is charged. -/
theorem honest_faultIn {k : Kernel} {i pg : ℕ} (ht : Charged (k.tasks i))
    (hmap : (k.tasks i).modelMap.isSome) (hpg : pg < (k.tasks i).modelFramesN)
    (hout : modelPageResident (k.tasks i) pg = false)
    (hbudget : (k.tasks i).modelWeightsKb + 4 ≤ (k.tasks i).modelBudgetKb) :
    Honest (k.tasks i) ((modelFaultInPage k i pg).2.tasks i) := by
  have hmax := ht.budget
  have hcovered := ht.covered
  obtain ⟨map, hmap⟩ := Option.isSome_iff_exists.mp hmap
  have hlen := ht.words map hmap
  have hbit := lt_bitLen hlen hpg
  simp only [modelPageResident, hmap] at hout
  simp only [modelFaultInPage]
  split
  · exact .refl ht
  · rw [setTask_tasks_same]
    have hweights : ((k.tasks i).modelWeightsKb + 4) % 2 ^ 32 =
        (k.tasks i).modelWeightsKb + 4 := Nat.mod_eq_of_lt (by omega)
    simp only [modelPageSet, setModelFrame, hmap, Option.map_some, if_true, hweights]
    refine ⟨⟨hmax, ?_, ?_, ?_⟩, fun _ _ _ ↦ hbudget⟩
    · change (k.tasks i).modelWeightsKb + 4 ≤ 65536
      omega
    · rw [modelResidentPages_eq ht hmap] at hcovered
      simp only [modelResidentPages]
      rw [List.take_of_length_le (by rw [length_bitSet, hlen]), setCount_bitSet hbit hout]
      omega
    · intro map' hmap'
      cases hmap'
      rw [length_bitSet, hlen]

/-- A step that brings no page in, followed by an honest one. -/
theorem Honest.after_fewer {t t' t'' : Task}
    (hfewer : ∀ pg, modelPageResident t' pg = true → modelPageResident t pg = true)
    (hnext : Honest t' t'') : Honest t t'' := by
  refine ⟨hnext.charged, fun pg hout hin ↦ hnext.paid pg ?_ hin⟩
  by_contra hres
  rw [hfewer pg (by simpa using hres)] at hout
  cases hout

theorem honest_loadPage {k : Kernel} {i pg : ℕ} (ht : Charged (k.tasks i)) (hpg : pg < k.winPages)
    (need : HeapNeed) : Honest (k.tasks i) ((modelLoadPage k i pg need).2.tasks i) := by
  obtain ⟨hcharged, hfewer, hready⟩ := ensure_spec ht k.winPages need
  simp only [modelLoadPage]
  split_ifs with hfail hres hover hloaded
  · exact .of_fewer hcharged hfewer
  · exact .of_fewer hcharged hfewer
  · exact .of_fewer hcharged hfewer
  all_goals
    have hready' := hready (by simpa using hfail)
    exact .after_fewer hfewer (honest_faultIn hcharged hready'.2 (hpg.trans_le hready'.1)
      (by simpa using hres) (by omega))

/-- A change of fields the accounting does not look at. -/
theorem Honest.of_faults {t t' : Task} (h : Honest t t') (n : ℕ) :
    Honest t { t' with modelFaults := n } :=
  ⟨⟨h.charged.budget, h.charged.weights, h.charged.covered, h.charged.words⟩, h.paid⟩

theorem honest_demandFault {k : Kernel} {i : ℕ} (ht : Charged (k.tasks i)) (cr2 err : ℕ)
    (need : HeapNeed) : Honest (k.tasks i) ((modelDemandFault k i cr2 err need).2.tasks i) := by
  unfold modelDemandFault
  split_ifs with hrange herr
  · exact .refl ht
  · exact .refl ht
  · simp only
    split_ifs with hpg
    · exact .refl ht
    · have hload := honest_loadPage ht (Nat.not_le.mp hpg) need
      generalize modelLoadPage k i ((cr2 - userModelBase) / 4096) need = r at hload
      obtain ⟨result, k'⟩ := r
      cases result with
      | denied => exact hload
      | resident => exact hload
      | loaded =>
        simp only [setTask_tasks_same]
        exact hload.of_faults _

theorem honest_prefetch {k : Kernel} {i : ℕ} (ht : Charged (k.tasks i)) (need : HeapNeed) :
    Honest (k.tasks i) ((modelPrefetch k i need).tasks i) := by
  simp only [modelPrefetch]
  split_ifs with hnone hrange hpg
  · exact .refl ht
  · exact .refl ht
  · exact .refl ht
  · exact honest_loadPage ht (Nat.not_le.mp hpg) need

theorem honest_touch {k : Kernel} {i : ℕ} (ht : Charged (k.tasks i)) (pg : ℕ) (need : HeapNeed) :
    Honest (k.tasks i) ((sysModelTouch k i pg need).tasks i) := by
  unfold sysModelTouch
  split_ifs
  · exact .refl ht
  · exact honest_demandFault ht _ _ need

/-- A resident page goes out and is refunded. -/
theorem honest_evict {k : Kernel} {i : ℕ} (ht : Charged (k.tasks i)) (pg : ℕ) :
    Honest (k.tasks i) ((modelEvictPage k i pg).2.tasks i) := by
  have hmax := ht.weights
  have hcovered := ht.covered
  simp only [modelEvictPage]
  split_ifs with hpg hout
  · exact .refl ht
  · exact .refl ht
  · simp only [Bool.or_eq_true, Bool.not_eq_true', not_or, Bool.not_eq_false] at hout
    obtain ⟨map, hmap⟩ : ∃ map, (k.tasks i).modelMap = some map := by
      rw [← Option.isSome_iff_exists, ← Option.not_isNone]
      simp [hout.1]
    have hres : bitGet map pg = true := by
      have hthere := hout.2
      simpa only [modelPageResident, hmap] using hthere
    have hbit : pg < bitLen map := by
      by_contra hlong
      rw [bitGet_of_le (Nat.not_lt.mp hlong)] at hres
      cases hres
    have hlen := ht.words map hmap
    have hcount := setCount_bitClr hbit hres
    rw [modelResidentPages_eq ht hmap] at hcovered
    have hweights : ((k.tasks i).modelWeightsKb + 2 ^ 32 - 4) % 2 ^ 32 =
        (k.tasks i).modelWeightsKb - 4 := by omega
    simp only [modelDropPage, setTask_tasks_same, modelPageSet, setModelFrame, hmap,
      Option.map_some, Bool.false_eq_true, if_false, hweights]
    refine .of_fewer ⟨ht.budget, ?_, ?_, ?_⟩ ?_
    · change (k.tasks i).modelWeightsKb - 4 ≤ 65536
      omega
    · simp only [modelResidentPages]
      rw [List.take_of_length_le (by rw [length_bitClr, hlen])]
      omega
    · intro map' hmap'
      cases hmap'
      rw [length_bitClr, hlen]
    · intro pg' hpg'
      simp only [modelPageResident, bitGet_bitClr hbit, Bool.and_eq_true] at hpg'
      simp only [modelPageResident, hmap, hpg'.2]

/-! ### Runs -/

/-- A step of the task that does not wrap around keeps the account honest. -/
theorem honest_step {k : Kernel} {i : ℕ} (ht : Charged (k.tasks i)) {op : ModelOp}
    (hok : Accounted i k op) : Honest (k.tasks i) ((modelStep i k op).tasks i) := by
  cases op with
  | budget kb => exact honest_budget ht kb.toNat
  | commit pages => exact honest_commit ht hok
  | touch pg need => exact honest_touch ht pg.toNat need
  | evict pg => exact honest_evict ht pg.toNat
  | fault cr2 err need => exact honest_demandFault ht cr2.toNat err.toNat need
  | prefetch need => exact honest_prefetch ht need
  | elsewhere k' =>
    change Honest (k.tasks i) (k'.tasks i)
    rw [show k'.tasks i = k.tasks i from hok]
    exact .refl ht

/-- The account of a task as `sched_spawn` leaves it. -/
structure Unused (t : Task) : Prop where
  budget : t.modelBudgetKb = 8192
  weights : t.modelWeightsKb = 0
  map : t.modelMap = none

theorem charged_of_unused {t : Task} (ht : Unused t) : Charged t where
  budget := by rw [ht.budget]; decide
  weights := by rw [ht.weights]; decide
  covered := by rw [modelResidentPages, ht.map]; exact Nat.zero_le _
  words := by rw [ht.map]; nofun

/-- In every run of a task in which no commitment wraps around, whatever happens elsewhere: the
charge covers the resident pages; a commitment returns `0` exactly when its charge fits the budget
and then adds it, unless it wraps around; and a page that comes in is within the budget. -/
theorem model_budget_hard_cap {i : ℕ} {k k' : Kernel} (hstart : Unused (k.tasks i))
    (hrun : Run (modelStep i) (Accounted i) k k') :
    4 * modelResidentPages (k'.tasks i) ≤ (k'.tasks i).modelWeightsKb ∧
      (∀ pages : BitVec 64,
        CommitExact k' i pages.toNat ↔ ¬ CommitWraps (k'.tasks i) pages.toNat) ∧
      ∀ op, Accounted i k' op → ∀ pg, modelPageResident (k'.tasks i) pg = false →
        modelPageResident ((modelStep i k' op).tasks i) pg = true →
        ((modelStep i k' op).tasks i).modelWeightsKb ≤
          ((modelStep i k' op).tasks i).modelBudgetKb := by
  have hcharged : Charged (k'.tasks i) := by
    refine hrun.invariant (fun u ↦ Charged (u.tasks i)) (charged_of_unused hstart) ?_
    exact fun u op hu hok ↦ (honest_step hu hok).charged
  exact ⟨hcharged.covered, fun pages ↦ commitExact_iff hcharged pages.toNat,
    fun op hok ↦ (honest_step hcharged hok).paid⟩

/-- A new task that commits three pages. -/
theorem model_budget_hard_cap_three :
    let k := sysModelCommit identityKernel 1 3
    Unused (identityKernel.tasks 1) ∧ Run (modelStep 1) (Accounted 1) identityKernel k ∧
      (k.tasks 1).modelWeightsKb = 12 ∧
      4 * modelResidentPages (k.tasks 1) ≤ (k.tasks 1).modelWeightsKb := by
  have hstart : Unused (identityKernel.tasks 1) := ⟨rfl, rfl, rfl⟩
  have hrun : Run (modelStep 1) (Accounted 1) identityKernel
      (modelStep 1 identityKernel (.commit 3)) := by
    refine Run.refl.snoc (ModelOp.commit 3) ?_
    change ¬ CommitWraps (identityKernel.tasks 1) 3
    decide
  exact ⟨hstart, hrun, rfl, (model_budget_hard_cap hstart hrun).1⟩

/-- A new task commits `2 ^ 62` pages: the call returns `0`, and nothing is charged. -/
theorem commit_wraps_to_zero :
    Unused (identityKernel.tasks 1) ∧ sysModelCommitRet identityKernel 1 (2 ^ 62) = 0 ∧
      (identityKernel.tasks 1).modelBudgetKb <
        (identityKernel.tasks 1).modelWeightsKb + 4 * 2 ^ 62 ∧
      ((sysModelCommit identityKernel 1 (2 ^ 62)).tasks 1).modelWeightsKb = 0 ∧
      ¬ CommitExact identityKernel 1 (2 ^ 62) := by
  have hret : sysModelCommitRet identityKernel 1 (2 ^ 62) = 0 := by decide
  have hover : (identityKernel.tasks 1).modelBudgetKb <
      (identityKernel.tasks 1).modelWeightsKb + 4 * 2 ^ 62 := by decide
  refine ⟨⟨rfl, rfl, rfl⟩, hret, hover, by decide, fun hexact ↦ ?_⟩
  exact absurd (hexact.1.mp hret) hover.not_ge

end NoOsKernel.Mm
