import NoOsKernel.Drivers.Kbd
import NoOsKernel.Lib.Runs

/-!
# The keys are a bounded queue

The interrupt handler pushes at any time, also while a reader is inside `kbd_getc` or `kbd_peekc`; a
push itself is not interrupted, and there is one reader at a time. So a call of the reader is a
sequence of steps, one for each access of what the handler shares with it: the comparison of the
cursors, the fetch of the byte, and, in `kbd_getc`, the store of the new cursor. The bytes that
pushes have stored and the bytes that `kbd_getc` has returned are kept beside the ring.
-/

set_option autoImplicit false
set_option relaxedAutoImplicit false

namespace NoOsKernel.Drivers

open Lib

/-- Where the reader is: in no call, in a call that has found the cursors apart, or in `kbd_getc`
with the byte it has fetched. -/
inductive Reader where
  | idle
  | getting
  | peeking
  | fetched (c : Byte)

/-- The ring and its reader, with the bytes stored and the bytes returned so far. -/
structure KeyQueue where
  ring : CellRing Byte
  reader : Reader
  accepted : List Byte
  returned : List Byte

/-- A push of the handler, and what the reader does: it calls `kbd_getc` or `kbd_peekc`, and it goes
on in its call. -/
inductive KeyOp where
  | push (c : Byte)
  | getc
  | peekc
  | go

namespace KeyQueue

/-- One step. A call begins with the comparison of the cursors, and returns at once when they meet.
-/
def step (q : KeyQueue) : KeyOp → KeyQueue
  | .push c =>
    { q with
      ring := kbdPush q.ring c
      accepted := if HasRoom q.ring then q.accepted ++ [c] else q.accepted }
  | .getc => if q.ring.head = q.ring.tail then q else { q with reader := .getting }
  | .peekc => if q.ring.head = q.ring.tail then q else { q with reader := .peeking }
  | .go =>
    match q.reader with
    | .idle => q
    | .getting => { q with reader := .fetched (q.ring.buf q.ring.tail) }
    | .peeking => { q with reader := .idle }
    | .fetched c =>
      { q with
        ring := q.ring.skip bufSize
        reader := .idle
        returned := q.returned ++ [c] }

/-- What a call returns with a step, when it returns: `none` is `-1`. -/
def answer (q : KeyQueue) : KeyOp → Option (Option Byte)
  | .push _ => none
  | .getc => if q.ring.head = q.ring.tail then some none else none
  | .peekc => if q.ring.head = q.ring.tail then some none else none
  | .go =>
    match q.reader with
    | .idle => none
    | .getting => none
    | .peeking => some (some (q.ring.buf q.ring.tail))
    | .fetched c => some (some c)

/-- The handler comes in at any time, and the reader makes one call after the other. -/
def CanHappen (q : KeyQueue) : KeyOp → Prop
  | .push _ => True
  | .getc => q.reader = .idle
  | .peekc => q.reader = .idle
  | .go => q.reader ≠ .idle

/-- The queue after `kbd_init`. -/
def init (buf : ℕ → Byte) : KeyQueue := ⟨(kbdInit buf).ring, .idle, [], []⟩

/-- The bytes that have been stored and not been returned. -/
def unread (q : KeyQueue) : List Byte := q.accepted.drop q.returned.length

/-! ### The invariant -/

/-- What the reader knows of the unread bytes. -/
def Knows (unread : List Byte) : Reader → Prop
  | .idle => True
  | .getting => unread ≠ []
  | .peeking => unread ≠ []
  | .fetched c => unread.head? = some c

/-- The bytes returned are the first of those stored, and the ring stores the others. -/
structure Ok (q : KeyQueue) : Prop where
  split : q.accepted = q.returned ++ q.unread
  stores : CellRing.Stores bufSize q.ring q.unread
  knows : Knows q.unread q.reader

variable {q : KeyQueue}

theorem unread_eq {accepted returned rest : List Byte} {ring : CellRing Byte} {reader : Reader}
    (h : accepted = returned ++ rest) : unread ⟨ring, reader, accepted, returned⟩ = rest := by
  rw [unread, h, List.drop_left]

theorem ok_of_split {accepted returned rest : List Byte} {ring : CellRing Byte} {reader : Reader}
    (hsplit : accepted = returned ++ rest) (hstores : CellRing.Stores bufSize ring rest)
    (hknows : Knows rest reader) : Ok ⟨ring, reader, accepted, returned⟩ := by
  have hunread : unread ⟨ring, reader, accepted, returned⟩ = rest := unread_eq hsplit
  refine ⟨?_, ?_, ?_⟩
  · rw [hunread]
    exact hsplit
  · rw [hunread]
    exact hstores
  · rw [hunread]
    exact hknows

/-- What the reader knows stays true when bytes are stored. -/
theorem knows_append {xs ys : List Byte} {reader : Reader} (h : Knows xs reader) :
    Knows (xs ++ ys) reader := by
  cases reader with
  | idle => exact trivial
  | getting => exact List.append_ne_nil_of_left_ne_nil h ys
  | peeking => exact List.append_ne_nil_of_left_ne_nil h ys
  | fetched c =>
    have hhead : xs.head? = some c := h
    change (xs ++ ys).head? = some c
    rw [List.head?_append, hhead, Option.some_or]

namespace Ok

theorem hasRoom_iff (h : Ok q) : HasRoom q.ring ↔ q.unread.length ≠ 255 := by
  rw [HasRoom, ne_eq, h.stores.next_head_eq_tail_iff, bufSize]
  omega

theorem cursors_meet_iff (h : Ok q) : q.ring.head = q.ring.tail ↔ q.unread = [] :=
  h.stores.head_eq_tail_iff

/-- The cell of the oldest unread byte. -/
theorem cell_eq (h : Ok q) (hne : q.unread ≠ []) :
    some (q.ring.buf q.ring.tail) = q.unread.head? := by
  obtain ⟨c, rest, hunread⟩ := List.exists_cons_of_ne_nil hne
  have hstores := h.stores
  rw [hunread] at hstores ⊢
  rw [hstores.first, List.head?_cons]

theorem push (h : Ok q) (c : Byte) : Ok (q.step (.push c)) := by
  by_cases hroom : HasRoom q.ring
  · have hlt : q.unread.length + 1 < bufSize := by
      have hne := h.hasRoom_iff.mp hroom
      have hle := h.stores.room
      rw [bufSize] at hle ⊢
      omega
    rw [step, if_pos hroom, kbdPush_of_room hroom]
    refine ok_of_split ?_ (h.stores.write hlt c) (knows_append h.knows)
    rw [← List.append_assoc, ← h.split]
  · rw [step, if_neg hroom, kbdPush_of_full hroom]
    exact h

/-- The reader comes to know something. -/
theorem withReader (h : Ok q) {reader : Reader} (hknows : Knows q.unread reader) :
    Ok { q with reader := reader } :=
  ok_of_split h.split h.stores hknows

theorem go (h : Ok q) : Ok (q.step .go) := by
  obtain ⟨ring, reader, accepted, returned⟩ := q
  cases reader with
  | idle => exact h
  | getting => exact h.withReader (h.cell_eq h.knows).symm
  | peeking => exact h.withReader trivial
  | fetched c =>
    obtain ⟨rest, hunread⟩ := List.head?_eq_some_iff.mp h.knows
    have hstores := h.stores
    have hsplit := h.split
    rw [hunread] at hstores hsplit
    refine ok_of_split ?_ hstores.skip trivial
    rw [List.append_assoc, List.singleton_append]
    exact hsplit

theorem step (h : Ok q) (op : KeyOp) : Ok (q.step op) := by
  have hne : ¬ q.ring.head = q.ring.tail → q.unread ≠ [] :=
    fun hapart hnil ↦ hapart (h.cursors_meet_iff.mpr hnil)
  cases op with
  | push c => exact h.push c
  | getc =>
    rw [KeyQueue.step]
    split_ifs with hmeet
    · exact h
    · exact h.withReader (hne hmeet)
  | peekc =>
    rw [KeyQueue.step]
    split_ifs with hmeet
    · exact h
    · exact h.withReader (hne hmeet)
  | go => exact h.go

end Ok

theorem ok_init (buf : ℕ → Byte) : Ok (init buf) :=
  ok_of_split rfl (CellRing.stores_nil (by decide) buf) trivial

/-! ### Calls -/

/-- A call that no interrupt comes into is `kbd_getc`. -/
theorem getc_uninterrupted (hidle : q.reader = .idle) (havail : kbdAvail q.ring = true) :
    ((q.step .getc).step .go).step .go =
      { q with
        ring := (kbdGetc q.ring).2
        returned := q.returned ++ (kbdGetc q.ring).1.toList } := by
  obtain ⟨ring, reader, accepted, returned⟩ := q
  cases hidle
  have hne : ¬ ring.head = ring.tail := bne_iff_ne.mp havail
  simp only [step, kbdGetc, if_neg hne]
  rfl

/-- A call returns the oldest unread byte, or `-1` when there is none. -/
theorem Ok.answer_eq (h : Ok q) {op : KeyOp} {a : Option Byte} (ha : q.answer op = some a) :
    a = q.unread.head? := by
  have hempty : q.ring.head = q.ring.tail → q.unread.head? = none := by
    intro hmeet
    rw [h.cursors_meet_iff.mp hmeet]
    rfl
  cases op with
  | push c => cases ha
  | getc =>
    rw [answer] at ha
    split_ifs at ha with hmeet
    rw [hempty hmeet, ← Option.some.inj ha]
  | peekc =>
    rw [answer] at ha
    split_ifs at ha with hmeet
    rw [hempty hmeet, ← Option.some.inj ha]
  | go =>
    obtain ⟨ring, reader, accepted, returned⟩ := q
    cases reader with
    | idle => cases ha
    | getting => cases ha
    | peeking => rw [← Option.some.inj ha, ← h.cell_eq h.knows]
    | fetched c =>
      have hknows : _ = some c := h.knows
      rw [← Option.some.inj ha, hknows]

theorem Ok.kbdPeekc_eq (h : Ok q) : kbdPeekc q.ring = q.unread.head? := by
  rw [kbdPeekc]
  split_ifs with hmeet
  · rw [h.cursors_meet_iff.mp hmeet]
    rfl
  · exact h.cell_eq fun hnil ↦ hmeet (h.cursors_meet_iff.mpr hnil)

theorem kbdGetc_fst (r : CellRing Byte) : (kbdGetc r).1 = kbdPeekc r := by
  rw [kbdGetc, kbdPeekc]
  split_ifs <;> rfl

/-- What is stored stays stored. -/
theorem accepted_prefix {q' : KeyQueue} (hrun : Run step CanHappen q q') :
    q.accepted <+: q'.accepted := by
  refine hrun.invariant (fun u ↦ q.accepted <+: u.accepted) (List.prefix_refl _) ?_
  rintro u op hu -
  obtain ⟨ring, reader, accepted, returned⟩ := u
  cases op with
  | push c =>
    rw [step]
    split_ifs
    · exact hu.trans (List.prefix_append _ _)
    · exact hu
  | getc =>
    rw [step]
    split_ifs <;> exact hu
  | peekc =>
    rw [step]
    split_ifs <;> exact hu
  | go => cases reader <;> exact hu

/-! ### The queue -/

/-- The ring as a queue of at most 255 bytes. -/
structure IsFifo (q : KeyQueue) : Prop where
  /-- What `kbd_getc` has returned are the first bytes stored, in their order. -/
  inOrder : q.accepted = q.returned ++ q.unread
  bounded : q.unread.length ≤ 255
  /-- A push is dropped when 255 bytes are unread, and only then. -/
  dropped : ∀ c, (q.step (.push c)).accepted =
    if q.unread.length = 255 then q.accepted else q.accepted ++ [c]
  /-- A call that returns here returns the oldest unread byte, or `-1` without one. -/
  answers : ∀ op a, CanHappen q op → q.answer op = some a → a = q.unread.head?
  /-- `kbd_peekc` returns what `kbd_getc` would. -/
  peek : kbdPeekc q.ring = (kbdGetc q.ring).1
  /-- `kbd_getc` returns `-1` when everything has been read, and only then. -/
  empty : (kbdGetc q.ring).1 = none ↔ q.accepted = q.returned
  /-- The oldest unread byte stays the one to be returned until `kbd_getc` returns it. -/
  stays : ∀ q' c, Run step CanHappen q q' → q'.returned = q.returned → q.unread.head? = some c →
    q'.unread.head? = some c

theorem Ok.isFifo (h : Ok q) : IsFifo q where
  inOrder := h.split
  bounded := Nat.le_of_lt_succ h.stores.room
  dropped c := by
    by_cases hfull : q.unread.length = 255
    · rw [if_pos hfull, KeyQueue.step, if_neg fun hroom ↦ h.hasRoom_iff.mp hroom hfull]
    · rw [if_neg hfull, KeyQueue.step, if_pos (h.hasRoom_iff.mpr hfull)]
  answers _ _ _ ha := h.answer_eq ha
  peek := (kbdGetc_fst q.ring).symm
  empty := by
    rw [kbdGetc_fst, h.kbdPeekc_eq, List.head?_eq_none_iff]
    constructor
    · intro hnil
      rw [h.split, hnil, List.append_nil]
    · intro hall
      rw [unread, hall, List.drop_length]
  stays q' c hrun hreturned hhead := by
    obtain ⟨later, hlater⟩ := accepted_prefix hrun
    have hunread : q'.unread = q.unread ++ later := by
      refine unread_eq ?_
      rw [← List.append_assoc, hreturned, ← h.split, hlater]
    rw [hunread, List.head?_append, hhead, Option.some_or]

/-- Whatever pushes come in between, or into, the calls of the reader, the ring is a queue. -/
theorem key_ring_fifo {buf : ℕ → Byte} {q : KeyQueue} (hrun : Run step CanHappen (init buf) q) :
    IsFifo q :=
  (hrun.invariant Ok (ok_init buf) fun _ op hu _ ↦ hu.step op).isFifo

/-- A byte is pushed while `kbd_getc` has another one in its hands. -/
theorem key_ring_fifo_two :
    IsFifo ([KeyOp.push 0x61, .getc, .go, .push 0x62, .go].foldl step (init fun _ ↦ 0)) := by
  refine key_ring_fifo (Run.refl.of_admits _ ?_)
  exact ⟨trivial, rfl, nofun, trivial, nofun, trivial⟩

end KeyQueue

end NoOsKernel.Drivers
