import Mathlib.Data.Finset.Card
import NoOsKernel.Sched.Invariant

/-!
# Waiting for a key

`SYS_KBD_WAIT` of `kernel/arch/x86_64/syscall.c`. Its loop goes on after `sched_block_user`, but then
with the frame and the current task of somebody else: as long as there is no key it blocks one
runnable task after the other, and ends in the REPL. The task that asked is woken by a key like
everybody else, and goes on behind the call without one.
-/

set_option autoImplicit false
set_option relaxedAutoImplicit false

namespace NoOsKernel.Sched

open Lib Mm

/-- `kbd_getc`, `none` for `-1`. -/
def kbdGetc (s : State) : Option Byte × State :=
  match s.keys with
  | [] => (none, s)
  | c :: rest => (some c, { s with keys := rest })

/-- The loop of `SYS_KBD_WAIT`; `none` while it has not ended. The handler runs with interrupts off,
so that no key arrives in between. -/
def kbdWaitLoop : ℕ → State → Regs → Option (Option Regs × State)
  | 0, _, _ => none
  | fuel + 1, s, r =>
    match kbdGetc s with
    | (some c, s) => some (some { r with rax := c.setWidth 64 }, s)
    | (none, s) =>
      match schedBlockUser s r 0 true with
      | (none, s) => some (none, s)
      | (some r, s) => kbdWaitLoop fuel s r

/-- `SYS_KBD_WAIT`: every round blocks a task. -/
def sysKbdWait (s : State) (r : Regs) : Option (Option Regs × State) :=
  kbdWaitLoop (taskMax + 1) s r

/-! ### What the call is to do -/

/-- The task that makes the call. -/
structure Caller (s : State) : Prop where
  user : (s.task s.current).user = true
  pos : s.current ≠ 0
  lt : s.current < taskMax

/-- No task but the caller is affected, except that one runnable task may get the processor, with
the frame it has saved. -/
def OnlyCaller (s : State) (out : Option Regs × State) : Prop :=
  ∀ i ≠ s.current,
    if i = out.2.current ∧ i ≠ 0 then
      (s.task i).state = .runnable ∧ (out.2.task i).state = .running ∧
        out.2.ctxs i = (s.ctxs i).enter ∧ out.1 = some (s.ctxs i).enter.ctx
    else (out.2.task i).state = (s.task i).state ∧ out.2.ctxs i = s.ctxs i

/-- Task `t` goes on with frame `f`: at once, or after a run in which it does not have the
processor. -/
def GoesOnWith (out : Option Regs × State) (t : ℕ) (f : Regs) : Prop :=
  (out.2.current = t ∧ out.1 = some f) ∨
    ∃ v op, Run (fun s op ↦ (step s op).2) (fun s op ↦ CanHappen s op ∧ s.current ≠ t) out.2 v ∧
      v.current ≠ t ∧ CanHappen v op ∧ (step v op).2.current = t ∧ (step v op).1 = some f

/-- The caller goes on with a key that the call has taken from the buffer. -/
def KeyDelivered (s : State) (out : Option Regs × State) : Prop :=
  ∀ f, GoesOnWith out s.current f →
    ∃ c rest, s.keys = c :: rest ∧ out.2.keys = rest ∧ f.rax = c.setWidth 64

/-! ### Tasks that can be chosen -/

theorem mem_pickOrder {last i : ℕ} : i ∈ pickOrder last ↔ i < taskMax := by
  simp only [pickOrder, List.mem_map, List.mem_range, taskMax]
  constructor
  · rintro ⟨j, -, rfl⟩
    omega
  · intro hi
    exact ⟨(i + 15 * (last + 1)) % 16, by omega, by omega⟩

/-- The tasks that `sched_pick_user` may take. -/
def choices (s : State) : Finset ℕ := (Finset.range taskMax).filter fun i ↦ pickable s i = true

theorem mem_choices {s : State} {i : ℕ} : i ∈ choices s ↔ i < taskMax ∧ pickable s i = true := by
  rw [choices, Finset.mem_filter, Finset.mem_range]

theorem card_choices_le (s : State) : (choices s).card ≤ taskMax := by
  have hle := Finset.card_filter_le (Finset.range taskMax) fun i ↦ pickable s i = true
  rwa [Finset.card_range] at hle

/-- The task that has been chosen runs. -/
def runNext (s : State) (i : ℕ) : Regs × State := runTask { s with schedLast := i } i

/-- `sched_switch_to_next` resumes the REPL when there is no choice, and otherwise runs a task that
is no choice afterwards. -/
theorem schedSwitchToNext_cases (s : State) :
    (choices s = ∅ ∧ schedSwitchToNext s =
      (none, { s.setTaskState 0 .runnable with current := 0, loadedCr3 := s.kernel.bootPml4 })) ∨
    ∃ i ∈ choices s, schedSwitchToNext s =
      (some (runNext s i).1, (runNext s i).2) := by
  rw [schedSwitchToNext, schedPickUser]
  rcases hfind : (pickOrder s.schedLast).find? (pickable s) with - | i
  · refine Or.inl ⟨?_, rfl⟩
    ext i
    refine iff_of_false (fun hi ↦ ?_) (Finset.notMem_empty i)
    obtain ⟨hlt, hpick⟩ := mem_choices.mp hi
    exact List.find?_eq_none.mp hfind i (mem_pickOrder.mpr hlt) hpick
  · refine Or.inr ⟨i, ?_, rfl⟩
    exact mem_choices.mpr
      ⟨mem_pickOrder.mp (List.mem_of_find?_eq_some hfind), List.find?_some hfind⟩

/-- Where there is a choice, the REPL hands the processor on as a user task does. -/
theorem schedYieldToUser_of_choice {s : State} (h : (choices s).Nonempty) :
    schedYieldToUser s = schedSwitchToNext s := by
  rcases schedSwitchToNext_cases s with ⟨hempty, -⟩ | ⟨i, hi, heq⟩
  · exact absurd h (Finset.not_nonempty_iff_eq_empty.mpr hempty)
  · rw [schedSwitchToNext] at heq ⊢
    rw [schedYieldToUser]
    rcases hpick : schedPickUser s with ⟨- | j, w⟩
    · rw [hpick] at heq
      cases heq
    · rfl

/-- Running a task changes the state of no other. -/
theorem runNext_task (s : State) (i : ℕ) {j : ℕ} (hj : j ≠ i) :
    ((runNext s i).2.task j) = s.task j :=
  Function.update_of_ne hj ..

theorem runNext_ctxs (s : State) (i : ℕ) {j : ℕ} (hj : j ≠ i) :
    (runNext s i).2.ctxs j = s.ctxs j :=
  Function.update_of_ne hj ..

/-- The task that runs is a choice no more. -/
theorem choices_runNext {s : State} {i : ℕ} (hi : i ∈ choices s) :
    (choices (runNext s i).2).card < (choices s).card := by
  refine Finset.card_lt_card ⟨fun j hj ↦ ?_, fun hsub ↦ ?_⟩
  · obtain ⟨hlt, hpick⟩ := mem_choices.mp hj
    have hne : j ≠ i := by
      rintro rfl
      have hstate := ((pickable_iff _ _).mp hpick).2.2
      rw [State.task, show (runNext s j).2.kernel.tasks j =
        { s.task j with state := .running } from Function.update_self ..] at hstate
      cases hstate
    rw [pickable_iff, runNext_task s i hne] at hpick
    exact mem_choices.mpr ⟨hlt, (pickable_iff s j).mpr hpick⟩
  · have hpick := (mem_choices.mp (hsub hi)).2
    have hstate := ((pickable_iff _ _).mp hpick).2.2
    rw [State.task, show (runNext s i).2.kernel.tasks i =
      { s.task i with state := .running } from Function.update_self ..] at hstate
    cases hstate

/-! ### Without a key -/

/-- A user task that waits for a key. -/
structure Waiting (s : State) (i : ℕ) : Prop where
  user : (s.task i).user = true
  state : (s.task i).state = .blocked
  onKey : (s.ctxs i).onKey = true

/-- The state in which `sched_block_user` looks for the next task. -/
def blockedState (s : State) (r : Regs) : State :=
  (s.setCtx s.current { s.ctxs s.current with ctx := r, wakeTicks := 0, onKey := true }).setTaskState
    s.current .blocked

theorem blockedState_task (s : State) (r : Regs) {i : ℕ} (hi : i ≠ s.current) :
    (blockedState s r).task i = s.task i :=
  Function.update_of_ne hi ..

theorem blockedState_ctxs (s : State) (r : Regs) {i : ℕ} (hi : i ≠ s.current) :
    (blockedState s r).ctxs i = s.ctxs i :=
  Function.update_of_ne hi ..

theorem blockedState_current (s : State) (r : Regs) :
    (blockedState s r).task s.current = { s.task s.current with state := .blocked } :=
  Function.update_self ..

/-- The current task waits from now on. -/
theorem waiting_blockedState {s : State} (r : Regs) (huser : (s.task s.current).user = true) {i : ℕ}
    (hi : i = s.current ∨ Waiting s i) : Waiting (blockedState s r) i := by
  by_cases hne : i = s.current
  · rw [hne]
    refine ⟨by rw [blockedState_current]; exact huser, by rw [blockedState_current], ?_⟩
    change (Function.update s.ctxs s.current _ s.current).onKey = true
    rw [Function.update_self]
  · have hold := hi.resolve_left hne
    exact ⟨by rw [blockedState_task s r hne]; exact hold.user,
      by rw [blockedState_task s r hne]; exact hold.state,
      by rw [blockedState_ctxs s r hne]; exact hold.onKey⟩

/-- Blocking a task makes no new choice. -/
theorem choices_blockedState (s : State) (r : Regs) : choices (blockedState s r) ⊆ choices s := by
  intro i hi
  obtain ⟨hlt, hpick⟩ := mem_choices.mp hi
  have hne : i ≠ s.current := by
    rintro rfl
    have hstate := ((pickable_iff _ _).mp hpick).2.2
    rw [blockedState_current] at hstate
    cases hstate
  rw [pickable_iff, blockedState_task s r hne] at hpick
  exact mem_choices.mpr ⟨hlt, (pickable_iff s i).mpr hpick⟩

/-- Without a key the loop ends in the REPL, with the caller and every task it has come across
waiting for a key. -/
theorem kbdWaitLoop_of_empty {fuel : ℕ} {s : State} (r : Regs) (hkeys : s.keys = [])
    (huser : (s.task s.current).user = true) (hfuel : (choices s).card < fuel) :
    ∃ s', kbdWaitLoop fuel s r = some (none, s') ∧ s'.current = 0 ∧ s'.keys = [] ∧
      ∀ i ≠ 0, i = s.current ∨ Waiting s i → Waiting s' i := by
  induction fuel generalizing s r with
  | zero => exact absurd hfuel (Nat.not_lt_zero _)
  | succ fuel ih =>
    have hget : kbdGetc s = (none, s) := by rw [kbdGetc, hkeys]
    have hblock : schedBlockUser s r 0 true = schedSwitchToNext (blockedState s r) := rfl
    rw [kbdWaitLoop, hget]
    simp only [hblock]
    rcases schedSwitchToNext_cases (blockedState s r) with ⟨-, heq⟩ | ⟨next, hnext, heq⟩
    · rw [heq]
      refine ⟨_, rfl, rfl, hkeys, fun i hzero hi ↦ ?_⟩
      have hwait := waiting_blockedState r huser hi
      have htask : ((blockedState s r).setTaskState 0 .runnable).task i =
          (blockedState s r).task i := Function.update_of_ne hzero ..
      exact ⟨htask ▸ hwait.user, htask ▸ hwait.state, hwait.onKey⟩
    · rw [heq]
      obtain ⟨-, huser', hstate'⟩ := (pickable_iff _ _).mp (mem_choices.mp hnext).2
      have hcard := (choices_runNext hnext).trans_le
        (Finset.card_le_card (choices_blockedState s r))
      have hself : (runNext (blockedState s r) next).2.task next =
          { (blockedState s r).task next with state := .running } := Function.update_self ..
      have hnewUser : ((runNext (blockedState s r) next).2.task
          (runNext (blockedState s r) next).2.current).user = true := by
        rw [show (runNext (blockedState s r) next).2.current = next from rfl, hself]
        exact huser'
      have hnewKeys : (runNext (blockedState s r) next).2.keys = [] := hkeys
      obtain ⟨s', hloop, hrepl, hkeys', hwait'⟩ := ih (runNext (blockedState s r) next).1 hnewKeys
        hnewUser (by omega)
      refine ⟨s', hloop, hrepl, hkeys', fun i hzero hi ↦ hwait' i hzero (Or.inr ?_)⟩
      -- a waiting task is not the one chosen
      have hwait := waiting_blockedState r huser hi
      have hne : i ≠ next := by
        rintro rfl
        rw [hwait.state] at hstate'
        cases hstate'
      exact ⟨by rw [runNext_task _ _ hne]; exact hwait.user,
        by rw [runNext_task _ _ hne]; exact hwait.state,
        by rw [runNext_ctxs _ _ hne]; exact hwait.onKey⟩

/-! ### Going on -/

/-- The choices that handing the processor on leaves. -/
theorem choices_exit (s : State) :
    choices { s with kernel := Mm.schedExitUser s.kernel s.current } ⊆ choices s := by
  intro i hi
  obtain ⟨hlt, hpick⟩ := mem_choices.mp hi
  obtain ⟨hzero, huser, hstate⟩ := (pickable_iff _ _).mp hpick
  simp only [State.task, schedExitUser_eq, Kernel.setTask] at huser hstate
  have hne : i ≠ s.current := by
    rintro rfl
    rw [Function.update_self] at hstate
    cases hstate
  rw [Function.update_of_ne hne] at huser hstate
  exact mem_choices.mpr ⟨hlt, (pickable_iff s i).mpr ⟨hzero, huser, hstate⟩⟩

/-- A task that can be chosen gets the processor, once the others have ended. -/
theorem goesOn_of_choice {out : Option Regs × State} {t n : ℕ} {v : State}
    (hrun : Run (fun s op ↦ (step s op).2) (fun s op ↦ CanHappen s op ∧ s.current ≠ t) out.2 v)
    (hcurrent : v.current ≠ t) (ht : t ∈ choices v) (hn : (choices v).card ≤ n) :
    ∃ f, GoesOnWith out t f := by
  induction n generalizing v with
  | zero =>
    rw [Nat.le_zero, Finset.card_eq_zero] at hn
    rw [hn] at ht
    exact absurd ht (Finset.notMem_empty t)
  | succ n ih =>
    -- the REPL yields, and a user task exits
    obtain ⟨op, u, hop, hstep, htu, hsub⟩ : ∃ op u, CanHappen v op ∧
        step v op = schedSwitchToNext u ∧ t ∈ choices u ∧ choices u ⊆ choices v := by
      by_cases hrepl : v.current = 0
      · exact ⟨.yieldToUser, v, hrepl, schedYieldToUser_of_choice ⟨t, ht⟩, ht, fun i hi ↦ hi⟩
      · refine ⟨.exit, { v with kernel := Mm.schedExitUser v.kernel v.current }, hrepl, rfl,
          ?_, choices_exit v⟩
        obtain ⟨hlt, hpick⟩ := mem_choices.mp ht
        obtain ⟨hzero, huser, hstate⟩ := (pickable_iff _ _).mp hpick
        refine mem_choices.mpr ⟨hlt, (pickable_iff _ _).mpr ⟨hzero, ?_⟩⟩
        simp only [State.task, schedExitUser_eq, Kernel.setTask]
        rw [Function.update_of_ne (Ne.symm hcurrent)]
        exact ⟨huser, hstate⟩
    rcases schedSwitchToNext_cases u with ⟨hempty, -⟩ | ⟨next, hnext, heq⟩
    · rw [hempty] at htu
      exact absurd htu (Finset.notMem_empty t)
    · have hout := hstep.trans heq
      by_cases hmine : next = t
      · refine ⟨(runNext u next).1, Or.inr ⟨v, op, hrun, hcurrent, hop,
          ?_, ?_⟩⟩
        · rw [hout]
          exact hmine
        · rw [hout]
      · refine ih (hrun.snoc op ⟨hop, hcurrent⟩) ?_ ?_ ?_
        · rw [hout]
          exact hmine
        · rw [hout]
          obtain ⟨hlt, hpick⟩ := mem_choices.mp htu
          refine mem_choices.mpr ⟨hlt, (pickable_iff _ _).mpr ?_⟩
          rw [runNext_task u next (Ne.symm hmine)]
          exact (pickable_iff u t).mp hpick
        · rw [hout]
          change (choices (runNext u next).2).card ≤ n
          have hless := choices_runNext hnext
          have hle := Finset.card_le_card hsub
          omega

/-- A key wakes a waiting task, and it goes on. -/
theorem goesOn_of_waiting {out : Option Regs × State} {t : ℕ} (hcurrent : out.2.current ≠ t)
    (hzero : t ≠ 0) (hlt : t < taskMax) (hwait : Waiting out.2 t) : ∃ f, GoesOnWith out t f := by
  have hkey : Run (fun s op ↦ (step s op).2) (fun s op ↦ CanHappen s op ∧ s.current ≠ t) out.2
      (schedOnKey out.2) := Run.refl.snoc SchedOp.key ⟨trivial, hcurrent⟩
  have hwoken : waitsForKey out.2 t = true := by
    simp only [waitsForKey, hwait.state, hwait.onKey, Bool.and_eq_true, bne_iff_ne,
      decide_eq_true_eq, beq_iff_eq]
    exact ⟨⟨⟨hzero, hlt⟩, trivial⟩, trivial⟩
  have htask : (schedOnKey out.2).task t = { out.2.task t with state := .runnable } := by
    change (if waitsForKey out.2 t then _ else _) = _
    rw [if_pos hwoken]
  refine goesOn_of_choice hkey hcurrent (mem_choices.mpr ⟨hlt, (pickable_iff _ _).mpr ?_⟩)
    (card_choices_le _)
  rw [htask]
  exact ⟨hzero, hwait.user, rfl⟩

/-! ### The call -/

/-- With a key in the buffer the call takes it and returns. -/
theorem sysKbdWait_of_key {s : State} (r : Regs) {c : Byte} {rest : List Byte}
    (hkeys : s.keys = c :: rest) :
    sysKbdWait s r = some (some { r with rax := c.setWidth 64 }, { s with keys := rest }) := by
  rw [sysKbdWait, kbdWaitLoop, kbdGetc, hkeys]

/-- The call ends, whatever is in the buffer. No other task is affected and the caller goes on with
a key exactly when there is one in the buffer at the call. -/
theorem kbd_wait_affects_caller_only_iff {s : State} (hcaller : Caller s) (r : Regs) :
    ∃ out, sysKbdWait s r = some out ∧
      (OnlyCaller s out ∧ KeyDelivered s out ↔ s.keys ≠ []) := by
  rcases hkeys : s.keys with - | ⟨c, rest⟩
  · obtain ⟨s', heq, hrepl, -, hwait⟩ := kbdWaitLoop_of_empty r hkeys hcaller.user
      (Nat.lt_succ_of_le (card_choices_le s))
    refine ⟨(none, s'), heq, iff_of_false (fun hboth ↦ ?_) (fun hne ↦ hne rfl)⟩
    have hother : s'.current ≠ s.current := by
      rw [hrepl]
      exact hcaller.pos.symm
    obtain ⟨f, hgoes⟩ : ∃ f, GoesOnWith (none, s') s.current f :=
      goesOn_of_waiting hother hcaller.pos hcaller.lt (hwait _ hcaller.pos (Or.inl rfl))
    obtain ⟨c, rest, hsome, -⟩ := hboth.2 f hgoes
    rw [hkeys] at hsome
    cases hsome
  · refine ⟨_, sysKbdWait_of_key r hkeys, iff_of_true ⟨fun i hi ↦ ?_, fun f hgoes ↦ ?_⟩ nofun⟩
    · rw [if_neg fun hboth ↦ hi hboth.1]
      exact ⟨rfl, rfl⟩
    · rcases hgoes with ⟨-, hframe⟩ | ⟨v, op, hrun, hcurrent, -⟩
      · refine ⟨c, rest, hkeys, rfl, ?_⟩
        rw [← Option.some.inj hframe]
      · -- the caller already has the processor
        rcases hrun.eq_or_start with heq | ⟨a, hstart⟩
        · rw [heq] at hcurrent
          exact absurd rfl hcurrent
        · exact absurd rfl hstart.2

/-- Two processes: the first has the processor, the second could run. -/
def twoTasks : State :=
  let process : Task := { Task.fresh with hasKstack := true, user := true, cr3 := 0x101000 }
  { bootState with
    kernel := { bootState.kernel with
      tasks := Function.update (Function.update bootState.kernel.tasks 1
        { process with pid := 1, state := .running }) 2 { process with pid := 2 }
      nextPid := 3 }
    ctxs := Function.update bootState.ctxs 1 { TaskCtx.zero with started := true }
    current := 1
    schedLast := 1 }

theorem caller_twoTasks : Caller twoTasks := ⟨rfl, by decide, by decide⟩

/-- The frame of a task at its call. -/
def kbdWaitFrame : Regs := { schedEntryFrame with rax := 6 }

theorem kbd_wait_affects_caller_only_iff_a :
    let s := { twoTasks with keys := [97] }
    ∃ out, sysKbdWait s kbdWaitFrame = some out ∧ OnlyCaller s out ∧ KeyDelivered s out := by
  have hcaller : Caller { twoTasks with keys := [97] } := ⟨rfl, by decide, by decide⟩
  obtain ⟨out, heq, hiff⟩ := kbd_wait_affects_caller_only_iff hcaller kbdWaitFrame
  exact ⟨out, heq, hiff.mpr nofun⟩

/-- Without a key, the call of the first process blocks the second one too, and the first keeps the
number of the call in `rax`. -/
theorem kbd_wait_blocks_bystander :
    Caller twoTasks ∧ twoTasks.keys = [] ∧ (twoTasks.task 2).state = .runnable ∧
      ∃ out, sysKbdWait twoTasks kbdWaitFrame = some out ∧ out.2.current = 0 ∧
        (out.2.task 2).state = .blocked ∧ (out.2.ctxs 2).onKey = true ∧
        (out.2.ctxs 1).ctx.rax = 6 ∧ ¬ OnlyCaller twoTasks out := by
  have hrun : ∃ out, sysKbdWait twoTasks kbdWaitFrame = some out := by
    obtain ⟨out, heq, -⟩ := kbdWaitLoop_of_empty kbdWaitFrame
      (show twoTasks.keys = [] from rfl) rfl (Nat.lt_succ_of_le (card_choices_le twoTasks))
    exact ⟨(none, out), heq⟩
  obtain ⟨out, heq⟩ := hrun
  have hvalues : (sysKbdWait twoTasks kbdWaitFrame).map (fun out ↦ (out.2.current,
      (out.2.task 2).state, (out.2.ctxs 2).onKey, (out.2.ctxs 1).ctx.rax)) =
      some (0, .blocked, true, 6) := by decide
  rw [heq, Option.map_some, Option.some.injEq, Prod.mk.injEq, Prod.mk.injEq, Prod.mk.injEq] at hvalues
  obtain ⟨hcurrent, hstate, hkey, hrax⟩ := hvalues
  refine ⟨caller_twoTasks, rfl, rfl, out, heq, hcurrent, hstate, hkey, hrax, fun honly ↦ ?_⟩
  have hother := honly 2 (by decide)
  rw [hcurrent, if_neg (by decide), hstate] at hother
  exact absurd hother.1 (by decide)

end NoOsKernel.Sched
