import NoOsKernel.Sched.Switch

/-!
# The scheduler invariant

What holds in every state of every run of the scheduler: the current task and no other is running,
zombies hold nothing, process numbers are distinct, and a task that stopped can be resumed where it
stopped (`SchedInv`).

A run is watched: next to the state stand the number of spawns so far and, for every slot, the frame
its task had when it last stopped (`Watched`). What does not depend on which task runs is `Books`;
between saving the current task and choosing the next one it holds with no task running.
-/

set_option autoImplicit false
set_option relaxedAutoImplicit false

namespace NoOsKernel.Sched

open Lib Mm

/-! ### Watching a run -/

/-- A state, the number of spawns so far, and the frames of the stopped tasks. -/
structure Watched where
  s : State
  spawns : ℕ
  stopped : ℕ → Option Regs

/-- The frame with which a step stops the current task, when it lets it go on later. -/
def stopFrame (s : State) : SchedOp → Option Regs
  | .block r _ _ | .preempt r => some r
  | .tick r => if (s.task s.current).user then some r else none
  | _ => none

/-- The frames of the stopped tasks after a step: a new process has not stopped yet. -/
def stoppedAfter (s : State) (stopped : ℕ → Option Regs) (op : SchedOp) : ℕ → Option Regs :=
  match op with
  | .spawn _ _ =>
    match freeTask s.kernel with
    | none => stopped
    | some i => Function.update stopped i none
  | op =>
    match stopFrame s op with
    | none => stopped
    | some r => Function.update stopped s.current (some r)

def SchedOp.isSpawn : SchedOp → Bool
  | .spawn _ _ => true
  | _ => false

def Watched.step (w : Watched) (op : SchedOp) : Watched where
  s := (Sched.step w.s op).2
  spawns := if op.isSpawn then w.spawns + 1 else w.spawns
  stopped := stoppedAfter w.s w.stopped op

/-! ### Invariants -/

/-- What a task record agrees on with the frame its task last stopped with. -/
def Resumes (c : TaskCtx) : Option Regs → Prop
  | none => c.started = false
  | some r => c.started = true ∧ c.ctx = r

/-- Entering a task takes the frame it stopped with, or an entry frame when it never has. -/
theorem Resumes.enter {c : TaskCtx} {f : Option Regs} (h : Resumes c f) :
    c.enter.started = true ∧ c.enter.ctx = f.getD schedEntryFrame := by
  cases f with
  | none =>
    have hnever : c.started = false := h
    rw [TaskCtx.enter, hnever]
    exact ⟨rfl, rfl⟩
  | some r =>
    rw [TaskCtx.enter, if_pos h.1]
    exact ⟨h.1, h.2⟩

/-- A zombie holds no address space, no swapped pages and no model arrays. -/
structure Reaped (t : Task) : Prop where
  cr3 : t.cr3 = 0
  swapMap : t.swapMap = []
  modelFrames : t.modelFrames = none
  modelMap : t.modelMap = none

/-- What does not depend on which task runs. -/
structure Books (s : State) (spawns : ℕ) (stopped : ℕ → Option Regs) : Prop where
  repl : (s.task 0).user = false ∧ (s.task 0).state = .runnable
  used : ∀ i ≠ 0, (s.task i).user = (s.task i).hasKstack
  unused : ∀ i ≠ 0, (s.task i).user = false → (s.task i).pid = 0 ∧ (s.task i).state = .runnable
  zombie : ∀ i, (s.task i).state = .zombie → Reaped (s.task i)
  swapOff : s.kernel.swap.active = false → ∀ i, (s.task i).swapMap = []
  pids : ∃ n ≤ spawns, s.kernel.nextPid = (1 + n) % 2 ^ 32 ∧
    ∀ i, (s.task i).user = true → 0 < (s.task i).pid ∧ (s.task i).pid ≤ n
  distinct : ∀ i j, (s.task i).user = true → (s.task j).user = true →
    (s.task i).pid = (s.task j).pid → i = j
  resume : ∀ i, (s.task i).user = true → (s.task i).state ≠ .running →
    (s.task i).state ≠ .zombie → Resumes (s.ctxs i) (stopped i)

/-- The scheduler's invariant: the books are in order, and the current task, if it is not the REPL,
is the one that runs. -/
structure SchedInv (w : Watched) : Prop where
  books : Books w.s w.spawns w.stopped
  running : ∀ i, (w.s.task i).state = .running ↔ i = w.s.current ∧ w.s.current ≠ 0
  user : w.s.current ≠ 0 → (w.s.task w.s.current).user = true
  started : w.s.current ≠ 0 → (w.s.ctxs w.s.current).started = true

variable {s s' : State} {n : ℕ} {st st' : ℕ → Option Regs}

/-- Slots that are not those of user tasks are runnable as far as they go. -/
theorem Books.state_of_not_user (h : Books s n st) {i : ℕ} (hi : (s.task i).user = false) :
    (s.task i).state = .runnable := by
  by_cases hzero : i = 0
  · rw [hzero]
    exact h.repl.2
  · exact (h.unused i hzero hi).2

/-- User tasks change their states; the rest of the table stays. -/
theorem Books.restate (h : Books s n st) {f : ℕ → TaskState}
    (htask : ∀ i, s'.task i = { s.task i with state := f i })
    (hpid : s'.kernel.nextPid = s.kernel.nextPid)
    (hactive : s'.kernel.swap.active = s.kernel.swap.active)
    (hkeep : ∀ i, (s.task i).user = false → f i = .runnable)
    (hzombie : ∀ i, f i = .zombie → (s.task i).state = .zombie)
    (hresume : ∀ i, (s.task i).user = true → f i ≠ .running → f i ≠ .zombie →
      Resumes (s'.ctxs i) (st' i)) : Books s' n st' where
  repl := by
    rw [htask]
    exact ⟨h.repl.1, hkeep 0 h.repl.1⟩
  used i hi := by
    rw [htask]
    exact h.used i hi
  unused i hi huser := by
    rw [htask] at huser ⊢
    exact ⟨(h.unused i hi huser).1, hkeep i huser⟩
  zombie i hstate := by
    rw [htask] at hstate ⊢
    have hold := h.zombie i (hzombie i hstate)
    exact ⟨hold.cr3, hold.swapMap, hold.modelFrames, hold.modelMap⟩
  swapOff hoff i := by
    rw [htask]
    exact h.swapOff (hactive ▸ hoff) i
  pids := by
    obtain ⟨m, hm, hnext, hlt⟩ := h.pids
    refine ⟨m, hm, hpid.trans hnext, fun i huser ↦ ?_⟩
    rw [htask] at huser ⊢
    exact hlt i huser
  distinct i j hi hj hij := by
    rw [htask] at hi hj hij
    rw [htask j] at hij
    exact h.distinct i j hi hj hij
  resume i huser hrun hzom := by
    rw [htask] at huser hrun hzom
    exact hresume i huser hrun hzom

/-- Storing one task's state restates the table. -/
theorem setTaskState_task (s : State) (i : ℕ) (x : TaskState) (j : ℕ) :
    (s.setTaskState i x).task j =
      { s.task j with state := Function.update (fun j ↦ (s.task j).state) i x j } := by
  change Function.update s.kernel.tasks i _ j = _
  by_cases hj : j = i
  · rw [hj, Function.update_self, Function.update_self]
    rfl
  · rw [Function.update_of_ne hj, Function.update_of_ne hj]
    rfl

/-! ### Choosing a task -/

/-- `sched_pick_user` takes a task it may take, or there is none. -/
theorem schedPickUser_cases (s : State) :
    (schedPickUser s = (none, s) ∧ ∀ i ∈ pickOrder s.schedLast, pickable s i = false) ∨
      ∃ i, schedPickUser s = (some i, { s with schedLast := i }) ∧ pickable s i = true := by
  rw [schedPickUser]
  rcases hfind : (pickOrder s.schedLast).find? (pickable s) with - | i
  · refine Or.inl ⟨rfl, fun i hi ↦ ?_⟩
    simpa using List.find?_eq_none.mp hfind i hi
  · exact Or.inr ⟨i, rfl, List.find?_some hfind⟩

theorem pickable_iff (s : State) (i : ℕ) : pickable s i = true ↔
    i ≠ 0 ∧ (s.task i).user = true ∧ (s.task i).state = .runnable := by
  simp only [pickable, Bool.and_eq_true, bne_iff_ne, beq_iff_eq, and_assoc]

/-- The task that gets the processor was runnable, and continues where it stopped. -/
def SwitchedTo (u : State) (stopped : ℕ → Option Regs) (r : Option Regs × State) : Prop :=
  r.2.current ≠ 0 → (u.task r.2.current).user = true ∧ (u.task r.2.current).state = .runnable ∧
    r.1 = some ((stopped r.2.current).getD schedEntryFrame)

/-- A task gets the processor. -/
theorem runTask_spec (h : Books s n st) (hidle : ∀ i, (s.task i).state ≠ .running) {i : ℕ}
    (hpick : pickable s i = true) :
    SchedInv ⟨(runTask s i).2, n, st⟩ ∧ (runTask s i).1 = (st i).getD schedEntryFrame := by
  obtain ⟨hzero, huser, hstate⟩ := (pickable_iff s i).mp hpick
  have hresume := h.resume i huser (hidle i) (by rw [hstate]; decide)
  obtain ⟨hstarted, hframe⟩ := hresume.enter
  refine ⟨⟨?_, fun j ↦ ?_, fun _ ↦ ?_, fun _ ↦ ?_⟩, hframe⟩
  · refine h.restate (setTaskState_task s i .running) rfl rfl (fun j hj ↦ ?_) (fun j hj ↦ ?_)
      fun j hj hrun hzom ↦ ?_
    · have hne : j ≠ i := by
        rintro rfl
        rw [huser] at hj
        cases hj
      rw [Function.update_of_ne hne]
      exact h.state_of_not_user hj
    · by_cases hne : j = i
      · rw [hne, Function.update_self] at hj
        cases hj
      · rwa [Function.update_of_ne hne] at hj
    · have hne : j ≠ i := by
        rintro rfl
        exact hrun (Function.update_self ..)
      rw [Function.update_of_ne hne] at hzom
      change Resumes (Function.update s.ctxs i _ j) (st j)
      rw [Function.update_of_ne hne]
      exact h.resume j hj (hidle j) hzom
  · change ((s.setTaskState i .running).task j).state = .running ↔ j = i ∧ i ≠ 0
    rw [setTaskState_task]
    by_cases hne : j = i
    · rw [hne, Function.update_self]
      exact iff_of_true rfl ⟨rfl, hzero⟩
    · rw [Function.update_of_ne hne]
      exact iff_of_false (hidle j) fun hboth ↦ hne hboth.1
  · change ((s.setTaskState i .running).task i).user = true
    rw [setTaskState_task]
    exact huser
  · change (Function.update s.ctxs i (s.ctxs i).enter i).started = true
    rw [Function.update_self]
    exact hstarted

/-- The books are about the task table and the records of the tasks only. -/
theorem Books.congr (h : Books s n st) (hkernel : s'.kernel = s.kernel) (hctxs : s'.ctxs = s.ctxs) :
    Books s' n st := by
  obtain ⟨kernel, ctxs, current, schedLast, pitTicks, keys, loadedCr3⟩ := s'
  change kernel = s.kernel at hkernel
  change ctxs = s.ctxs at hctxs
  subst hkernel hctxs
  exact ⟨h.repl, h.used, h.unused, h.zombie, h.swapOff, h.pids, h.distinct, h.resume⟩

/-- `sched_switch_to_next`, when no task is running any more. -/
theorem switch_spec (h : Books s n st) (hidle : ∀ i, (s.task i).state ≠ .running) :
    SchedInv ⟨(schedSwitchToNext s).2, n, st⟩ ∧ SwitchedTo s st (schedSwitchToNext s) := by
  rw [schedSwitchToNext]
  rcases schedPickUser_cases s with ⟨heq, -⟩ | ⟨i, heq, hpick⟩
  · rw [heq]
    refine ⟨⟨?_, fun j ↦ ?_, fun hne ↦ absurd rfl hne, fun hne ↦ absurd rfl hne⟩,
      fun hne ↦ absurd rfl hne⟩
    · have hsame : s.kernel.setTask 0 { s.kernel.tasks 0 with state := .runnable } = s.kernel := by
        have hzero : { s.kernel.tasks 0 with state := .runnable } = s.kernel.tasks 0 := by
          rw [← show (s.kernel.tasks 0).state = .runnable from h.repl.2]
        rw [Kernel.setTask, hzero, Function.update_eq_self]
      exact h.congr hsame rfl
    · change ((s.setTaskState 0 .runnable).task j).state = .running ↔ _
      rw [setTaskState_task]
      refine iff_of_false ?_ fun hne ↦ hne.2 rfl
      by_cases hj : j = 0
      · rw [hj, Function.update_self]
        rintro ⟨⟩
      · rw [Function.update_of_ne hj]
        exact hidle j
  · rw [heq]
    have hlast : Books { s with schedLast := i } n st := h.congr rfl rfl
    obtain ⟨hinv, hframe⟩ := runTask_spec hlast hidle (i := i) hpick
    obtain ⟨-, huser, hstate⟩ := (pickable_iff s i).mp hpick
    exact ⟨hinv, fun _ ↦ ⟨huser, hstate, congrArg some hframe⟩⟩

/-- `sched_yield_to_user`, in the REPL. -/
theorem yield_spec {w : Watched} (h : SchedInv w) (hcurrent : w.s.current = 0) :
    SchedInv ⟨(schedYieldToUser w.s).2, w.spawns, w.stopped⟩ ∧
      SwitchedTo w.s w.stopped (schedYieldToUser w.s) := by
  have hidle : ∀ i, (w.s.task i).state ≠ .running :=
    fun i hrun ↦ ((h.running i).mp hrun).2 hcurrent
  rw [schedYieldToUser]
  rcases schedPickUser_cases w.s with ⟨heq, -⟩ | ⟨i, heq, hpick⟩
  · rw [heq]
    exact ⟨h, fun hne ↦ absurd hcurrent hne⟩
  · rw [heq]
    have hlast : Books { w.s with schedLast := i } w.spawns w.stopped := h.books.congr rfl rfl
    obtain ⟨hinv, hframe⟩ := runTask_spec hlast hidle (i := i) hpick
    obtain ⟨-, huser, hstate⟩ := (pickable_iff w.s i).mp hpick
    exact ⟨hinv, fun _ ↦ ⟨huser, hstate, congrArg some hframe⟩⟩

/-! ### Stopping a task -/

/-- The current task is put down with its frame. -/
theorem save_spec {w : Watched} (h : SchedInv w) (hcurrent : w.s.current ≠ 0) {c : TaskCtx}
    {r : Regs} {x : TaskState} (hctx : c.ctx = r)
    (hstarted : c.started = (w.s.ctxs w.s.current).started) (hrun : x ≠ .running)
    (hzombie : x ≠ .zombie) :
    Books ((w.s.setCtx w.s.current c).setTaskState w.s.current x) w.spawns
        (Function.update w.stopped w.s.current (some r)) ∧
      ∀ i, (((w.s.setCtx w.s.current c).setTaskState w.s.current x).task i).state ≠ .running := by
  have htask := setTaskState_task (w.s.setCtx w.s.current c) w.s.current x
  have hothers : ∀ i ≠ w.s.current, (w.s.task i).state ≠ .running :=
    fun i hi hstate ↦ hi ((h.running i).mp hstate).1
  constructor
  · refine h.books.restate htask rfl rfl (fun i hi ↦ ?_) (fun i hi ↦ ?_) fun i hi hnot hzom ↦ ?_
    · have hne : i ≠ w.s.current := by
        rintro rfl
        rw [h.user hcurrent] at hi
        cases hi
      rw [Function.update_of_ne hne]
      exact h.books.state_of_not_user hi
    · by_cases hne : i = w.s.current
      · rw [hne, Function.update_self] at hi
        exact absurd hi hzombie
      · rwa [Function.update_of_ne hne] at hi
    · change Resumes (Function.update w.s.ctxs w.s.current c i) _
      by_cases hne : i = w.s.current
      · rw [hne, Function.update_self, Function.update_self]
        exact ⟨hstarted.trans (h.started hcurrent), hctx⟩
      · rw [Function.update_of_ne hne] at hzom
        rw [Function.update_of_ne hne, Function.update_of_ne hne]
        exact h.books.resume i hi (hothers i hne) hzom
  · intro i
    rw [htask]
    by_cases hne : i = w.s.current
    · rw [hne, Function.update_self]
      exact hrun
    · rw [Function.update_of_ne hne]
      exact hothers i hne

/-- One slot gets a new task. -/
theorem Books.setSlot (h : Books s n st) {i n' : ℕ} {t : Task} (hi : i ≠ 0)
    (htasks : s'.kernel.tasks = Function.update s.kernel.tasks i t)
    (hctxs : ∀ j ≠ i, s'.ctxs j = s.ctxs j) (hst : ∀ j ≠ i, st' j = st j)
    (hactive : s'.kernel.swap.active = s.kernel.swap.active) (hused : t.user = t.hasKstack)
    (hunused : t.user = false → t.pid = 0 ∧ t.state = .runnable)
    (hzombie : t.state = .zombie → Reaped t) (hswap : s.kernel.swap.active = false → t.swapMap = [])
    (hpids : ∃ m ≤ n', s'.kernel.nextPid = (1 + m) % 2 ^ 32 ∧
      (∀ j, (s.task j).user = true → 0 < (s.task j).pid ∧ (s.task j).pid ≤ m) ∧
      (t.user = true → 0 < t.pid ∧ t.pid ≤ m))
    (hdistinct : t.user = true → ∀ j ≠ i, (s.task j).user = true → (s.task j).pid ≠ t.pid)
    (hresume : t.user = true → t.state ≠ .running → t.state ≠ .zombie →
      Resumes (s'.ctxs i) (st' i)) : Books s' n' st' := by
  have hself : s'.task i = t := by rw [State.task, htasks, Function.update_self]
  have hother : ∀ j ≠ i, s'.task j = s.task j := by
    intro j hj
    rw [State.task, htasks, Function.update_of_ne hj, State.task]
  refine ⟨?_, fun j hj ↦ ?_, fun j hj huser ↦ ?_, fun j hstate ↦ ?_, fun hoff j ↦ ?_, ?_,
    fun j l hj hl hjl ↦ ?_, fun j huser hrun hzom ↦ ?_⟩
  · rw [hother 0 hi.symm]
    exact h.repl
  · by_cases hji : j = i
    · rw [hji, hself]
      exact hused
    · rw [hother j hji]
      exact h.used j hj
  · by_cases hji : j = i
    · rw [hji, hself] at huser ⊢
      exact hunused huser
    · rw [hother j hji] at huser ⊢
      exact h.unused j hj huser
  · by_cases hji : j = i
    · rw [hji, hself] at hstate ⊢
      exact hzombie hstate
    · rw [hother j hji] at hstate ⊢
      exact h.zombie j hstate
  · by_cases hji : j = i
    · rw [hji, hself]
      exact hswap (hactive ▸ hoff)
    · rw [hother j hji]
      exact h.swapOff (hactive ▸ hoff) j
  · obtain ⟨m, hm, hnext, hold, hnew⟩ := hpids
    refine ⟨m, hm, hnext, fun j huser ↦ ?_⟩
    by_cases hji : j = i
    · rw [hji, hself] at huser ⊢
      exact hnew huser
    · rw [hother j hji] at huser ⊢
      exact hold j huser
  · by_cases hji : j = i <;> by_cases hli : l = i
    · exact hji.trans hli.symm
    · rw [hji, hself, hother l hli] at hjl
      rw [hji, hself] at hj
      rw [hother l hli] at hl
      exact absurd hjl.symm (hdistinct hj l hli hl)
    · rw [hli, hself, hother j hji] at hjl
      rw [hli, hself] at hl
      rw [hother j hji] at hj
      exact absurd hjl (hdistinct hl j hji hj)
    · rw [hother j hji, hother l hli] at hjl
      rw [hother j hji] at hj
      rw [hother l hli] at hl
      exact h.distinct j l hj hl hjl
  · by_cases hji : j = i
    · rw [hji, hself] at huser hrun hzom
      rw [hji]
      exact hresume huser hrun hzom
    · rw [hother j hji] at huser hrun hzom
      rw [hctxs j hji, hst j hji]
      exact h.resume j huser hrun hzom

/-- The current task becomes a zombie. -/
theorem exit_spec {w : Watched} (h : SchedInv w) (hcurrent : w.s.current ≠ 0) :
    Books { w.s with kernel := Mm.schedExitUser w.s.kernel w.s.current } w.spawns w.stopped ∧
      ∀ i, ((Mm.schedExitUser w.s.kernel w.s.current).tasks i).state ≠ .running := by
  rw [schedExitUser_eq]
  have huser := h.user hcurrent
  have hswap : (if w.s.kernel.swap.active = false then (w.s.task w.s.current).swapMap else []) =
      [] := by
    split_ifs with hoff
    · exact h.books.swapOff hoff w.s.current
    · rfl
  constructor
  · obtain ⟨m, hm, hnext, hpids⟩ := h.books.pids
    refine h.books.setSlot hcurrent rfl (fun _ _ ↦ rfl) (fun _ _ ↦ rfl) ?_
      (h.books.used _ hcurrent) (fun hnot ↦ ?_) (fun _ ↦ ⟨rfl, hswap, rfl, rfl⟩) (fun _ ↦ hswap)
      ⟨m, hm, hnext, hpids, fun _ ↦ hpids _ huser⟩ (fun _ j hj hj' hsame ↦ ?_) fun _ _ hzom ↦ ?_
    · change (swapExitTask w.s.kernel w.s.current).swap.active = _
      rw [swapExitTask]
      split_ifs
      · rfl
      · exact foldl_slotFree_active _ _
    · have hnot : (w.s.task w.s.current).user = false := hnot
      rw [huser] at hnot
      cases hnot
    · exact hj (h.books.distinct j _ hj' huser hsame)
    · exact absurd rfl hzom
  · intro i
    change (Function.update w.s.kernel.tasks w.s.current _ i).state ≠ .running
    by_cases hne : i = w.s.current
    · rw [hne, Function.update_self]
      rintro ⟨⟩
    · rw [Function.update_of_ne hne]
      exact fun hrun ↦ hne ((h.running i).mp hrun).1

/-! ### Waking, spawning, and what happens elsewhere -/

/-- Blocked tasks become runnable. -/
theorem SchedInv.wake {w : Watched} (h : SchedInv w) {woken : ℕ → Bool}
    {clear : TaskCtx → TaskCtx} (hwoken : ∀ i, woken i = true → (w.s.task i).state = .blocked)
    (hclear : ∀ c, (clear c).ctx = c.ctx ∧ (clear c).started = c.started) :
    SchedInv { w with s := Sched.wake w.s woken clear } := by
  have htask : ∀ i, (Sched.wake w.s woken clear).task i =
      { w.s.task i with state := if woken i then .runnable else (w.s.task i).state } := by
    intro i
    change (if woken i then { w.s.task i with state := TaskState.runnable } else w.s.task i) = _
    split_ifs <;> rfl
  have hctx : ∀ i, ((Sched.wake w.s woken clear).ctxs i).ctx = (w.s.ctxs i).ctx ∧
      ((Sched.wake w.s woken clear).ctxs i).started = (w.s.ctxs i).started := by
    intro i
    simp only [Sched.wake]
    split_ifs
    · exact hclear _
    · exact ⟨rfl, rfl⟩
  refine ⟨?_, fun i ↦ ?_, fun hcurrent ↦ ?_, fun hcurrent ↦ (hctx _).2.trans (h.started hcurrent)⟩
  · refine h.books.restate htask rfl rfl (fun i hi ↦ ?_)
      (fun i hi ↦ ?_) fun i hi hrun hzom ↦ ?_
    · split_ifs
      · rfl
      · exact h.books.state_of_not_user hi
    · split_ifs at hi
      exact hi
    · have hold : Resumes (w.s.ctxs i) (w.stopped i) := by
        refine h.books.resume i hi ?_ ?_
        · by_cases hi : woken i = true
          · rw [hwoken i hi]
            rintro ⟨⟩
          · rwa [if_neg hi] at hrun
        · by_cases hi : woken i = true
          · rw [hwoken i hi]
            rintro ⟨⟩
          · rwa [if_neg hi] at hzom
      rcases hst : w.stopped i with - | r
      · rw [hst] at hold
        exact (hctx i).2.trans hold
      · rw [hst] at hold
        exact ⟨(hctx i).2.trans hold.1, (hctx i).1.trans hold.2⟩
  · change ((Sched.wake w.s woken clear).task i).state = .running ↔
      i = w.s.current ∧ w.s.current ≠ 0
    rw [htask, ← h.running i]
    by_cases hi : woken i = true
    · rw [hwoken i hi]
      exact iff_of_false (by simp [hi]) (by rintro ⟨⟩)
    · simp only [hi]
      rfl
  · change ((Sched.wake w.s woken clear).task w.s.current).user = true
    rw [htask]
    exact h.user hcurrent

theorem SchedInv.wakeSleepers {w : Watched} (h : SchedInv w) :
    SchedInv { w with s := Sched.wakeSleepers w.s } := by
  refine h.wake (fun i hi ↦ ?_) fun c ↦ ⟨rfl, rfl⟩
  simp only [sleepOver, Bool.and_eq_true, beq_iff_eq] at hi
  exact hi.1.1.2

theorem SchedInv.schedOnKey {w : Watched} (h : SchedInv w) :
    SchedInv { w with s := Sched.schedOnKey w.s } := by
  refine h.wake (fun i hi ↦ ?_) fun c ↦ ⟨rfl, rfl⟩
  simp only [waitsForKey, Bool.and_eq_true, beq_iff_eq] at hi
  exact hi.1.2

/-- `sched_spawn`, from the REPL. -/
theorem SchedInv.spawn {w : Watched} (h : SchedInv w) (hcurrent : w.s.current = 0)
    (hspawns : w.spawns + 1 < 2 ^ 32) (code : List Byte) (need : ℕ) :
    SchedInv (w.step (.spawn code need)) := by
  rcases hslot : freeTask w.s.kernel with - | i
  · have hsame : w.step (.spawn code need) = { w with spawns := w.spawns + 1 } := by
      simp only [Watched.step, step, Sched.schedSpawn, schedSpawn_full hslot, stoppedAfter, hslot,
        SchedOp.isSpawn, if_true]
    rw [hsame]
    obtain ⟨m, hm, hpids⟩ := h.books.pids
    exact ⟨⟨h.books.repl, h.books.used, h.books.unused, h.books.zombie, h.books.swapOff,
      ⟨m, hm.trans (Nat.le_succ _), hpids⟩, h.books.distinct, h.books.resume⟩, h.running, h.user,
      h.started⟩
  · obtain ⟨hi, -⟩ := freeTask_spec hslot
    obtain ⟨m, hm, hnext, hpids⟩ := h.books.pids
    have hctxs : ∀ j ≠ i, (w.step (.spawn code need)).s.ctxs j = w.s.ctxs j := by
      intro j hj
      simp only [Watched.step, step, Sched.schedSpawn, hslot]
      exact Function.update_of_ne hj ..
    have hctx : (w.step (.spawn code need)).s.ctxs i = TaskCtx.zero := by
      simp only [Watched.step, step, Sched.schedSpawn, hslot]
      exact Function.update_self ..
    have hst : ∀ j ≠ i, (w.step (.spawn code need)).stopped j = w.stopped j := by
      intro j hj
      simp only [Watched.step, stoppedAfter, hslot]
      exact Function.update_of_ne hj ..
    have hsti : (w.step (.spawn code need)).stopped i = none := by
      simp only [Watched.step, stoppedAfter, hslot]
      exact Function.update_self ..
    obtain ⟨hswap, hspawn⟩ := schedSpawn_tasks hslot code need
    have hactive : (w.step (.spawn code need)).s.kernel.swap.active = w.s.kernel.swap.active :=
      congrArg Swap.active hswap
    -- the REPL goes on, and nobody runs, before and after
    have hidle : ∀ t : Task, t.state = .runnable →
        (w.step (.spawn code need)).s.kernel.tasks = Function.update w.s.kernel.tasks i t →
        ∀ j, ((w.step (.spawn code need)).s.task j).state = .running ↔
          j = w.s.current ∧ w.s.current ≠ 0 := by
      intro t ht htasks j
      rw [State.task, htasks]
      by_cases hj : j = i
      · rw [hj, Function.update_self, ht]
        exact iff_of_false nofun fun hne ↦ hne.2 hcurrent
      · rw [Function.update_of_ne hj]
        exact h.running j
    rcases hspawn with ⟨htasks, hpid⟩ | ⟨cr3, htasks, hpid⟩
    · refine ⟨h.books.setSlot hi htasks hctxs hst hactive rfl (fun _ ↦ ⟨rfl, rfl⟩) nofun
        (fun _ ↦ rfl) ⟨m, hm.trans (Nat.le_succ _), hpid.trans hnext, hpids, nofun⟩ nofun nofun,
        hidle _ rfl htasks, fun hne ↦ absurd hcurrent hne, fun hne ↦ absurd hcurrent hne⟩
    · have hnew : w.s.kernel.nextPid = 1 + m := by
        rw [hnext, Nat.mod_eq_of_lt (by omega)]
      refine ⟨h.books.setSlot hi htasks hctxs hst hactive rfl nofun nofun (fun _ ↦ rfl)
        ⟨m + 1, Nat.succ_le_succ hm, ?_, fun j hj ↦ ?_, fun _ ↦ ?_⟩ (fun _ j _ hj hsame ↦ ?_)
        fun _ _ _ ↦ ?_, hidle _ rfl htasks, fun hne ↦ absurd hcurrent hne,
        fun hne ↦ absurd hcurrent hne⟩
      · change (Mm.schedSpawn w.s.kernel code need).2.nextPid = _
        rw [hpid, hnew, Nat.add_assoc]
      · exact ⟨(hpids j hj).1, (hpids j hj).2.trans (Nat.le_succ m)⟩
      · change 0 < w.s.kernel.nextPid ∧ w.s.kernel.nextPid ≤ m + 1
        omega
      · have hsame : (w.s.task j).pid = w.s.kernel.nextPid := hsame
        have hle := (hpids j hj).2
        omega
      · rw [hctx, hsti]
        rfl

/-- Steps of the memory subsystems and of the keyboard. -/
theorem SchedInv.elsewhere {w : Watched} (h : SchedInv w) {kernel : Kernel}
    (hkernel : Undisturbed w.s.kernel kernel) (keys : List Byte) :
    SchedInv { w with s := { w.s with kernel := kernel, keys := keys } } := by
  have hpid : ∀ i, (kernel.tasks i).pid = (w.s.task i).pid := fun i ↦ (hkernel.tasks i).1
  have hstate : ∀ i, (kernel.tasks i).state = (w.s.task i).state := fun i ↦ (hkernel.tasks i).2.1
  have huser : ∀ i, (kernel.tasks i).user = (w.s.task i).user := fun i ↦ (hkernel.tasks i).2.2.1
  have hstack : ∀ i, (kernel.tasks i).hasKstack = (w.s.task i).hasKstack :=
    fun i ↦ (hkernel.tasks i).2.2.2
  refine ⟨⟨?_, fun i hi ↦ ?_, fun i hi hnot ↦ ?_, fun i hzom ↦ ?_, fun hoff i ↦ ?_, ?_,
    fun i j hi hj hij ↦ ?_, fun i hi hrun hzom ↦ ?_⟩, fun i ↦ ?_, fun hne ↦ ?_, h.started⟩
  · exact ⟨(huser 0).trans h.books.repl.1, (hstate 0).trans h.books.repl.2⟩
  · exact ((huser i).trans (h.books.used i hi)).trans (hstack i).symm
  · have hold := h.books.unused i hi ((huser i).symm.trans hnot)
    exact ⟨(hpid i).trans hold.1, (hstate i).trans hold.2⟩
  · have hzom' := (hstate i).symm.trans hzom
    obtain ⟨hcr3, hswap, hframes, hmap⟩ := hkernel.zombie i hzom'
    have hold := h.books.zombie i hzom'
    exact ⟨hcr3.trans hold.cr3, hswap.trans hold.swapMap, hframes.trans hold.modelFrames,
      hmap.trans hold.modelMap⟩
  · have hoff' := hkernel.active.symm.trans hoff
    exact (hkernel.swap hoff' i).trans (h.books.swapOff hoff' i)
  · obtain ⟨m, hm, hnext, hpids⟩ := h.books.pids
    refine ⟨m, hm, hkernel.nextPid.trans hnext, fun i hi ↦ ?_⟩
    change 0 < (kernel.tasks i).pid ∧ (kernel.tasks i).pid ≤ m
    rw [hpid]
    exact hpids i ((huser i).symm.trans hi)
  · exact h.books.distinct i j ((huser i).symm.trans hi) ((huser j).symm.trans hj)
      (((hpid i).symm.trans hij).trans (hpid j))
  · exact h.books.resume i ((huser i).symm.trans hi) (fun hold ↦ hrun ((hstate i).trans hold))
      fun hold ↦ hzom ((hstate i).trans hold)
  · change (kernel.tasks i).state = .running ↔ _
    rw [hstate]
    exact h.running i
  · exact (huser _).trans (h.user hne)

/-! ### Runs -/

/-- The clock goes on. -/
theorem SchedInv.setTicks {w : Watched} (h : SchedInv w) (ticks : ℕ) :
    SchedInv { w with s := { w.s with pitTicks := ticks } } :=
  ⟨h.books.congr rfl rfl, h.running, h.user, h.started⟩

/-- The state in which `sched_on_tick` looks at the current task. -/
def tickState (s : State) : State :=
  wakeSleepers { s with pitTicks := (s.pitTicks + 1) % 2 ^ 64 }

theorem tickState_user (s : State) :
    ((tickState s).task (tickState s).current).user = (s.task s.current).user := by
  change (if _ then { s.task s.current with state := TaskState.runnable }
    else s.task s.current).user = _
  split_ifs <;> rfl

theorem SchedInv.tick {w : Watched} (h : SchedInv w) : SchedInv { w with s := tickState w.s } :=
  (h.setTicks _).wakeSleepers

/-- A step that hands the processor on does it with no task running, and with the frame of the task
it stopped kept. -/
theorem atSwitch_spec {w : Watched} (h : SchedInv w) {op : SchedOp} (hop : CanHappen w.s op)
    {u : State} (hu : atSwitch w.s op = some u) :
    SchedInv (w.step op) ∧ SwitchedTo u (w.step op).stopped (step w.s op) := by
  cases op with
  | spawn code need => cases hu
  | key => cases hu
  | elsewhere kernel keys => cases hu
  | yieldToUser =>
    cases hu
    exact yield_spec h hop
  | block r wakeTicks onKey =>
    cases hu
    obtain ⟨hbooks, hidle⟩ := save_spec h hop (r := r) (x := .blocked)
      (c := { w.s.ctxs w.s.current with ctx := r, wakeTicks := wakeTicks.toNat, onKey := onKey })
      rfl rfl nofun nofun
    exact switch_spec hbooks hidle
  | preempt r =>
    cases hu
    obtain ⟨hbooks, hidle⟩ := save_spec h hop (r := r) (x := .runnable)
      (c := { w.s.ctxs w.s.current with ctx := r }) rfl rfl nofun nofun
    exact switch_spec hbooks hidle
  | exit =>
    cases hu
    obtain ⟨hbooks, hidle⟩ := exit_spec h hop
    exact switch_spec hbooks hidle
  | tick r =>
    change (if ((tickState w.s).task (tickState w.s).current).user then _ else none) = _ at hu
    by_cases huser : ((tickState w.s).task (tickState w.s).current).user = true
    · have hcurrent : (tickState w.s).current ≠ 0 := by
        intro hzero
        have hrepl := h.tick.books.repl.1
        rw [hzero] at huser
        exact absurd huser (by rw [hrepl]; decide)
      obtain ⟨hbooks, hidle⟩ := save_spec h.tick hcurrent (r := r) (x := .runnable)
        (c := { (tickState w.s).ctxs (tickState w.s).current with ctx := r }) rfl rfl nofun nofun
      have hstep : step w.s (.tick r) = schedPreempt (tickState w.s) r := if_pos huser
      have hstopped : (w.step (.tick r)).stopped =
          Function.update w.stopped (tickState w.s).current (some r) := by
        simp only [Watched.step, stoppedAfter, stopFrame, ← tickState_user w.s, huser, if_true]
        rfl
      rw [if_pos huser, Option.some.injEq] at hu
      rw [hstopped, hstep, ← hu]
      have hw : w.step (.tick r) = ⟨(schedPreempt (tickState w.s) r).2, w.spawns,
          Function.update w.stopped (tickState w.s).current (some r)⟩ := by
        rw [← hstopped, ← hstep]
        rfl
      rw [hw]
      exact switch_spec hbooks hidle
    · rw [if_neg huser] at hu
      cases hu

/-- A step that does not hand the processor on leaves it with the current task. -/
theorem SchedInv.step_of_none {w : Watched} (h : SchedInv w) {op : SchedOp}
    (hop : CanHappen w.s op) (hspawns : (w.step op).spawns < 2 ^ 32)
    (hnone : atSwitch w.s op = none) :
    SchedInv (w.step op) ∧ (step w.s op).2.current = w.s.current := by
  cases op with
  | spawn code need => exact ⟨h.spawn hop hspawns code need, rfl⟩
  | key => exact ⟨h.schedOnKey, rfl⟩
  | elsewhere kernel keys => exact ⟨h.elsewhere hop keys, rfl⟩
  | yieldToUser => cases hnone
  | block r wakeTicks onKey => cases hnone
  | preempt r => cases hnone
  | exit => cases hnone
  | tick r =>
    change (if ((tickState w.s).task (tickState w.s).current).user then _ else none) = _ at hnone
    by_cases huser : ((tickState w.s).task (tickState w.s).current).user = true
    · rw [if_pos huser] at hnone
      cases hnone
    · have hstep : step w.s (.tick r) = (some r, tickState w.s) := if_neg huser
      have hw : w.step (.tick r) = { w with s := tickState w.s } := by
        simp only [Watched.step, hstep, stoppedAfter, stopFrame, ← tickState_user w.s, huser,
          SchedOp.isSpawn]
        rfl
      rw [hw, hstep]
      exact ⟨h.tick, rfl⟩

theorem SchedInv.step {w : Watched} (h : SchedInv w) {op : SchedOp} (hop : CanHappen w.s op)
    (hspawns : (w.step op).spawns < 2 ^ 32) : SchedInv (w.step op) := by
  rcases hu : atSwitch w.s op with - | u
  · exact (h.step_of_none hop hspawns hu).1
  · exact (atSwitch_spec h hop hu).1

theorem schedInv_initial {s : State} (h : Initial s) : SchedInv ⟨s, 0, fun _ ↦ none⟩ := by
  have hstate : ∀ i, (s.task i).state = .runnable := fun i ↦ (h.tasks i).2.1
  have huser : ∀ i, (s.task i).user = false := fun i ↦ (h.tasks i).2.2.1
  have hnot : ∀ i, (s.task i).user = true → False := by
    intro i hi
    rw [huser i] at hi
    cases hi
  refine ⟨⟨⟨huser 0, hstate 0⟩, fun i hi ↦ ?_, fun i _ _ ↦ ⟨(h.tasks i).1, hstate i⟩,
    fun i hzom ↦ ?_, fun _ i ↦ (h.tasks i).2.2.2.2.1, ⟨0, le_refl 0, ?_, fun i hi ↦ (hnot i hi).elim⟩,
    fun i _ hi ↦ (hnot i hi).elim, fun i hi ↦ (hnot i hi).elim⟩, fun i ↦ ?_,
    fun hne ↦ absurd h.current hne, fun hne ↦ absurd h.current hne⟩
  · rw [huser i]
    by_contra hstack
    exact hi ((h.tasks i).2.2.2.2.2.2.2 (by simpa using Ne.symm hstack))
  · rw [hstate i] at hzom
    cases hzom
  · exact h.nextPid
  · change (s.task i).state = .running ↔ i = s.current ∧ s.current ≠ 0
    rw [hstate i]
    exact iff_of_false nofun fun hne ↦ hne.2 h.current

/-- In every state of every run with fewer than `2 ^ 32` spawns: a user task runs exactly when it is
the current one, and no two tasks run; zombies hold nothing; slots in use have distinct process
numbers, which are not `0`; and the next step leaves the processor where it is, or gives it to a
runnable user task with the frame that task last stopped with. -/
theorem sched_state_invariant {s₀ : State} (hinit : Initial s₀) {w : Watched}
    (hrun : Run Watched.step (fun w op ↦ CanHappen w.s op) ⟨s₀, 0, fun _ ↦ none⟩ w)
    (hspawns : w.spawns < 2 ^ 32) :
    (∀ i, (w.s.task i).user = true → ((w.s.task i).state = .running ↔ i = w.s.current)) ∧
      (∀ i j, (w.s.task i).state = .running → (w.s.task j).state = .running → i = j) ∧
      (∀ i, (w.s.task i).state = .zombie → Reaped (w.s.task i)) ∧
      (∀ i ≠ 0, (w.s.task i).hasKstack = true → (w.s.task i).pid ≠ 0 ∧
        ∀ j ≠ 0, (w.s.task j).hasKstack = true → (w.s.task i).pid = (w.s.task j).pid → i = j) ∧
      (∀ i ≠ 0, (w.s.task i).hasKstack = false → (w.s.task i).pid = 0) ∧
      ∀ op, CanHappen w.s op → (w.step op).spawns < 2 ^ 32 →
        match atSwitch w.s op with
        | none => (step w.s op).2.current = w.s.current
        | some u => SwitchedTo u (w.step op).stopped (step w.s op) := by
  have h : SchedInv w := by
    refine hrun.invariant (fun w ↦ w.spawns < 2 ^ 32 → SchedInv w)
      (fun _ ↦ schedInv_initial hinit) (fun v op hv hop hless ↦ ?_) hspawns
    refine (hv ?_).step hop hless
    refine lt_of_le_of_lt ?_ hless
    change v.spawns ≤ if op.isSpawn then v.spawns + 1 else v.spawns
    split_ifs <;> omega
  refine ⟨fun i hi ↦ ?_, fun i j hi hj ↦ ?_, h.books.zombie, fun i hi hstack ↦ ⟨?_, ?_⟩, ?_,
    fun op hop hless ↦ ?_⟩
  · rw [h.running i]
    refine and_iff_left_of_imp fun hcurrent hzero ↦ ?_
    rw [hcurrent, hzero, h.books.repl.1] at hi
    cases hi
  · exact ((h.running i).mp hi).1.trans ((h.running j).mp hj).1.symm
  · obtain ⟨m, -, -, hpids⟩ := h.books.pids
    exact (hpids i ((h.books.used i hi).trans hstack)).1.ne'
  · intro j hj hstack' hpid
    exact h.books.distinct i j ((h.books.used i hi).trans hstack)
      ((h.books.used j hj).trans hstack') hpid
  · intro i hi hstack
    exact (h.books.unused i hi ((h.books.used i hi).trans hstack)).1
  · rcases hu : atSwitch w.s op with - | u
    · exact (h.step_of_none hop hless hu).2
    · exact (atSwitch_spec h hop hu).2

/-- The machine after `sched_init`, with half a megabyte of free frames. -/
def bootState : State where
  kernel := { identityKernel with
    tasks := Function.update (fun _ ↦ Task.fresh) 0 { Task.fresh with hasKstack := true }
    nextPid := 1
    machine := { identityKernel.machine with
      pmm :=
        { bitmap := List.replicate 33 0xFF ++ List.replicate 16 0
          totalFrames := 392
          freeFrames := 128 } } }
  ctxs := fun _ ↦ TaskCtx.zero
  current := 0
  schedLast := 0
  pitTicks := 0
  keys := []
  loadedCr3 := 0x100000

theorem initial_bootState : Initial bootState := by
  refine ⟨fun i ↦ ?_, rfl, rfl⟩
  by_cases hi : i = 0
  · rw [hi]
    exact ⟨rfl, rfl, rfl, rfl, rfl, rfl, rfl, fun _ ↦ rfl⟩
  · have hfresh : bootState.task i = Task.fresh := by
      change Function.update (fun _ ↦ Task.fresh) 0 { Task.fresh with hasKstack := true } i = _
      rw [Function.update_of_ne hi]
    rw [hfresh]
    exact ⟨rfl, rfl, rfl, rfl, rfl, rfl, rfl, nofun⟩

/-- A process is spawned, gets the processor, and loses it to the clock and gets it back. -/
def firstRun : Watched :=
  [SchedOp.spawn [] 0, .yieldToUser, .tick Regs.zero].foldl Watched.step ⟨bootState, 0, fun _ ↦ none⟩

theorem sched_state_invariant_firstRun :
    firstRun.s.current = 1 ∧ (firstRun.s.task 1).state = .running := by
  have hrun : Run Watched.step (fun w op ↦ CanHappen w.s op) ⟨bootState, 0, fun _ ↦ none⟩
      firstRun := by
    refine Run.refl.of_admits [SchedOp.spawn [] 0, .yieldToUser, .tick Regs.zero] ?_
    exact ⟨rfl, rfl, trivial, trivial⟩
  have hrunning : firstRun.s.current = 1 ∧ (firstRun.s.task 1).user = true := by decide +kernel
  obtain ⟨hcurrent, huser⟩ := hrunning
  have h := sched_state_invariant initial_bootState hrun (by decide)
  exact ⟨hcurrent, (h.1 1 huser).mpr hcurrent.symm⟩

end NoOsKernel.Sched
