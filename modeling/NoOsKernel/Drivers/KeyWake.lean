import NoOsKernel.Drivers.Kbd
import NoOsKernel.Sched.KeyWait

/-!
# Keys wake the tasks that wait for them

The keyboard interrupt over the decoder and the task table. Where the handler gets to the end it
calls `sched_on_key`, and no task waits for a key afterwards. The branch behind the prefix stores
its bytes without that call. The task switch knows the bytes that wait to be read as a list;
`Console.Buffered` says that they are those in the ring, and reading and storing keep it so.
-/

set_option autoImplicit false
set_option relaxedAutoImplicit false

namespace NoOsKernel.Drivers

open Lib Mm Sched

/-- The keyboard and the scheduler. -/
structure Console where
  kbd : Kbd
  sched : Sched.State

/-- A keyboard interrupt, a call of `kbd_getc`, and what happens elsewhere in the meantime: tasks
block, wake up, begin and end. -/
inductive ConsoleOp where
  | key (sc : Byte)
  | getc
  | elsewhere (sched : Sched.State)

/-- A user task is blocked until a key comes. -/
def SomeoneWaits (s : Sched.State) : Prop :=
  ∃ i, waitsForKey s i = true ∧ (s.task i).user = true

/-- A keyboard interrupt stores a byte. -/
def StoresByte (k : Kbd) (sc : Byte) : Prop := (kbdHandler k sc).1.ring.head ≠ k.ring.head

namespace Console

def step (s : Console) : ConsoleOp → Console
  | .key sc =>
    let r := kbdHandler s.kbd sc
    { kbd := r.1, sched := if r.2 then schedOnKey s.sched else s.sched }
  | .getc => { s with kbd := { s.kbd with ring := (kbdGetc s.kbd.ring).2 } }
  | .elsewhere sched => { s with sched := sched }

/-- An interrupt that stores a byte leaves nobody waiting. -/
def Wakes (s : Console) : ConsoleOp → Prop
  | .key sc => StoresByte s.kbd sc → ¬ SomeoneWaits (s.step (.key sc)).sched
  | .getc => True
  | .elsewhere _ => True

/-- The code of an extended key comes behind the prefix, there is room for its byte, and a user task
waits for a key. -/
def LosesWakeup (s : Console) : ConsoleOp → Prop
  | .key sc => s.kbd.ext = true ∧ sc ∈ extendedKeys.map Prod.fst ∧ HasRoom s.kbd.ring ∧
      SomeoneWaits s.sched
  | .getc => False
  | .elsewhere _ => False

/-- A task comes to wait for a key only when none is there: `SYS_KBD_WAIT` blocks it when `kbd_getc`
has returned `-1`. -/
def CanHappen (s : Console) : ConsoleOp → Prop
  | .key _ => True
  | .getc => True
  | .elsewhere sched => SomeoneWaits sched → SomeoneWaits s.sched ∨ kbdAvail s.kbd.ring = false

/-- Nobody waits for a key while there is one. -/
def Awake (s : Console) : Prop := kbdAvail s.kbd.ring = true → ¬ SomeoneWaits s.sched

/-! ### The keys of the scheduler -/

/-- The bytes that the task switch reads are those that stand in the ring of the keyboard. -/
def Buffered (s : Console) : Prop := CellRing.Stores bufSize s.kbd.ring s.sched.keys

namespace Buffered

variable {s : Console}

/-- `kbd_getc` on the ring and on the bytes: the same answer, and the same bytes are left. -/
theorem getc (h : s.Buffered) : (kbdGetc s.kbd.ring).1 = (Sched.kbdGetc s.sched).1 ∧
    Buffered ⟨{ s.kbd with ring := (kbdGetc s.kbd.ring).2 }, (Sched.kbdGetc s.sched).2⟩ := by
  rw [Buffered] at h ⊢
  rw [kbdGetc, Sched.kbdGetc]
  cases hkeys : s.sched.keys with
  | nil =>
    rw [if_pos (h.head_eq_tail_iff.mpr hkeys)]
    exact ⟨rfl, h⟩
  | cons c rest =>
    have hne : ¬ s.kbd.ring.head = s.kbd.ring.tail := by
      rw [h.head_eq_tail_iff, hkeys]
      exact List.cons_ne_nil c rest
    rw [hkeys] at h
    rw [if_neg hne]
    exact ⟨congrArg some h.first, h.skip⟩

/-- `kbd_push` adds its byte behind the others, while there are fewer than 255. -/
theorem push (h : s.Buffered) (c : Byte) :
    Buffered ⟨s.kbd.push c, { s.sched with keys :=
      if s.sched.keys.length < 255 then s.sched.keys ++ [c] else s.sched.keys }⟩ := by
  have hroom := h.next_head_eq_tail_iff
  rw [bufSize] at hroom
  rw [Buffered, Kbd.push]
  split_ifs with hfew
  · have hfree : HasRoom s.kbd.ring := fun heq ↦ absurd (hroom.mp heq) (by omega)
    rw [kbdPush_of_room hfree]
    exact h.write (by rw [bufSize]; omega) c
  · have hlt := h.room
    rw [bufSize] at hlt
    have hfull : ¬ HasRoom s.kbd.ring := not_not.mpr (hroom.mpr (by omega))
    rw [kbdPush_of_full hfull]
    exact h

end Buffered

/-! ### One interrupt -/

/-- `sched_on_key` leaves nobody waiting. -/
theorem not_waits_schedOnKey (s : Sched.State) : ¬ SomeoneWaits (schedOnKey s) := by
  rintro ⟨i, hwaits, -⟩
  by_cases hwoken : waitsForKey s i = true
  · have htask : (schedOnKey s).task i = { s.task i with state := .runnable } := if_pos hwoken
    rw [waitsForKey, htask] at hwaits
    simp at hwaits
  · have htask : (schedOnKey s).task i = s.task i := if_neg hwoken
    have hctx : (schedOnKey s).ctxs i = s.ctxs i := if_neg hwoken
    rw [waitsForKey, htask, hctx] at hwaits
    exact hwoken hwaits

theorem push_head (k : Kbd) (c : Byte) :
    (k.push c).ring.head ≠ k.ring.head ↔ HasRoom k.ring := by
  by_cases hroom : HasRoom k.ring
  · refine iff_of_true ?_ hroom
    have hhead : (k.push c).ring.head = CellRing.next bufSize k.ring.head := by
      rw [Kbd.push, kbdPush_of_room hroom]
      rfl
    rw [hhead, CellRing.next, bufSize]
    omega
  · refine iff_of_false (not_not.mpr ?_) hroom
    rw [Kbd.push, kbdPush_of_full hroom]

theorem mem_extendedKeys_iff (sc : Byte) :
    sc ∈ extendedKeys.map Prod.fst ↔ (extendedKeys.lookup sc).isSome = true := by
  revert sc
  decide

/-- Behind the prefix a byte is stored for the extended keys only. -/
theorem storesByte_extended {k : Kbd} (hext : k.ext = true) (sc : Byte) :
    StoresByte k sc ↔ sc ∈ extendedKeys.map Prod.fst ∧ HasRoom k.ring := by
  have hhandler : (kbdHandler k sc).1 = kbdExtended { k with ext := false } sc := by
    rw [kbdHandler, if_pos hext]
  rw [StoresByte, hhandler, kbdExtended]
  by_cases hctrl : sc = 0x1D
  · simp [hctrl, extendedKeys]
  by_cases hctrl' : sc = 0x9D
  · simp [hctrl', extendedKeys]
  by_cases hleft : sc = 0x2A
  · simp [hleft, extendedKeys]
  by_cases hright : sc = 0x36
  · simp [hright, extendedKeys]
  simp only [hctrl, hctrl', hleft, hright, if_false, mem_extendedKeys_iff]
  rcases extendedKeys.lookup sc with - | c
  · exact iff_of_false (fun hne ↦ hne rfl) fun h ↦ Bool.false_ne_true h.1
  · rw [Option.isSome_some, eq_self_iff_true, true_and]
    exact push_head { k with ext := false } c

/-- Without the prefix an interrupt calls `sched_on_key` or leaves the ring alone. -/
theorem calls_or_ring_eq {k : Kbd} (hext : k.ext = false) (sc : Byte) :
    (kbdHandler k sc).2 = true ∨ (kbdHandler k sc).1.ring = k.ring := by
  have hnot : ¬ k.ext = true := by
    rw [hext]
    exact Bool.false_ne_true
  rw [kbdHandler, if_neg hnot]
  split_ifs
  all_goals first | exact Or.inr rfl | exact Or.inl rfl

/-- An interrupt leaves nobody waiting with a byte it has stored, but for the lost ones. -/
theorem wakes_iff (s : Console) (op : ConsoleOp) : s.Wakes op ↔ ¬ s.LosesWakeup op := by
  cases op with
  | getc => exact iff_of_true trivial id
  | elsewhere sched => exact iff_of_true trivial id
  | key sc =>
    rcases hext : s.kbd.ext with - | -
    · refine iff_of_true (fun hstores ↦ ?_) fun hlost ↦ ?_
      · have hcalls := (calls_or_ring_eq hext sc).resolve_right fun hring ↦
          hstores (congrArg CellRing.head hring)
        rw [step, hcalls]
        exact not_waits_schedOnKey s.sched
      · rw [LosesWakeup, hext] at hlost
        exact Bool.false_ne_true hlost.1
    · have hsame : (s.step (.key sc)).sched = s.sched := by
        rw [step, kbdHandler, if_pos hext]
        rfl
      rw [Wakes, LosesWakeup, hsame, storesByte_extended hext]
      simp only [hext, true_and, not_and, and_imp]

/-- The handler leaves the cursor for reading alone. -/
theorem kbdHandler_tail (k : Kbd) (sc : Byte) : (kbdHandler k sc).1.ring.tail = k.ring.tail := by
  have hpush : ∀ (k : Kbd) (c : Byte), (k.push c).ring.tail = k.ring.tail := by
    intro k c
    rw [Kbd.push, kbdPush]
    split_ifs <;> rfl
  have hextended : ∀ k : Kbd, (kbdExtended k sc).ring.tail = k.ring.tail := by
    intro k
    rw [kbdExtended]
    split_ifs
    · rfl
    · rfl
    · rfl
    · rfl
    · rcases extendedKeys.lookup sc with - | c
      · rfl
      · exact hpush k c
  rw [kbdHandler]
  split_ifs <;> first | rfl | exact hpush _ _ | exact hextended _

/-! ### Runs -/

/-- What can happen keeps everybody awake, but for the lost wake-ups. -/
theorem Awake.step {s : Console} (h : Awake s) {op : ConsoleOp} (hop : s.CanHappen op)
    (hkept : ¬ s.LosesWakeup op) : Awake (s.step op) := by
  cases op with
  | key sc =>
    intro havail
    by_cases hstores : StoresByte s.kbd sc
    · exact (wakes_iff s (.key sc)).mpr hkept hstores
    · have hsame : kbdAvail s.kbd.ring = true := by
        rw [← havail, kbdAvail, kbdAvail]
        change _ = ((kbdHandler s.kbd sc).1.ring.head != (kbdHandler s.kbd sc).1.ring.tail)
        rw [kbdHandler_tail, not_not.mp hstores]
      change ¬ SomeoneWaits (if (kbdHandler s.kbd sc).2 then schedOnKey s.sched else s.sched)
      split_ifs
      · exact not_waits_schedOnKey s.sched
      · exact h hsame
  | getc =>
    intro havail
    refine h ?_
    by_cases hmeet : s.kbd.ring.head = s.kbd.ring.tail
    · simpa only [Console.step, kbdGetc, if_pos hmeet] using havail
    · exact bne_iff_ne.mpr hmeet
  | elsewhere sched =>
    intro havail hwaits
    rcases hop hwaits with hbefore | hnone
    · exact h havail hbefore
    · exact Bool.false_ne_true (hnone.symm.trans havail)

/-- In every run, each interrupt that stores a byte leaves no user task waiting for a key, if and
only if no extended key comes while there is room for it and a task waits. A run without such a key
keeps every task awake while there is a byte to read. -/
theorem key_wakeups_iff (s : Console) (ops : List ConsoleOp) :
    (Admits step Wakes s ops ↔ Admits step (fun s op ↦ ¬ s.LosesWakeup op) s ops) ∧
      (Awake s → Admits step (fun s op ↦ s.CanHappen op ∧ ¬ s.LosesWakeup op) s ops →
        Awake (ops.foldl step s)) := by
  constructor
  · have hsame : Wakes = fun s op ↦ ¬ s.LosesWakeup op := by
      funext s op
      exact propext (wakes_iff s op)
    rw [hsame]
  · intro hawake hops
    exact (Run.refl.of_admits ops hops).invariant Awake hawake fun u op hu hop ↦ hu.step hop.1 hop.2

/-- A process waits for a key, and none has been typed. -/
def waitingConsole : Console where
  kbd := kbdInit fun _ ↦ 0
  sched := (schedBlockUser twoTasks kbdWaitFrame 0 true).2

/-- The cursor key is stored, and the process goes on waiting. -/
theorem cursor_key_wakes_nobody :
    ¬ Admits step Wakes waitingConsole [.key 0xE0, .key 0x48] ∧
      kbdPeekc ([ConsoleOp.key 0xE0, .key 0x48].foldl step waitingConsole).kbd.ring = some 0x80 ∧
      SomeoneWaits ([ConsoleOp.key 0xE0, .key 0x48].foldl step waitingConsole).sched := by
  have hwaits : SomeoneWaits waitingConsole.sched := ⟨1, by decide, by decide⟩
  refine ⟨fun h ↦ ?_, by decide, hwaits⟩
  exact (wakes_iff _ _).mp h.2.1 ⟨rfl, by decide, by decide, hwaits⟩

end Console

end NoOsKernel.Drivers
