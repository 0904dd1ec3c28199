import NoOsKernel.Fs.Shell
import NoOsKernel.Lib.Window
import Mathlib.Data.List.DropRight

/-!
# The interaction log

`kernel/noc/interact.c`: a byte array that keeps the newest records of the session, each ended by a
newline. `ilAppend` makes room by dropping whole records from the front, `ilCopyTail` reads the last
bytes back, and the three callers of `ilAppend` build the records: the REPL after each command, and
the scheduler when a process is spawned or exits.

The eviction loop carries fuel. A call that runs out of it has no result; `evict_spec` says that a
call never does.
-/

set_option autoImplicit false
set_option relaxedAutoImplicit false

namespace NoOsKernel.Log

open Lib Fs

/-- `IL_RING_SIZE` -/
def ilRingSize : ℕ := 65536

/-- `IL_CAP_MAX` -/
def ilCapMax : ℕ := 1024

def newline : Byte := 0x0a

/-! ### The ring -/

/-- The array, the bytes stored in it and the number of records. -/
structure IlState where
  ring : Mem
  len : ℕ
  records : ℕ

/-- `il_ring[0 .. il_len - 1]` -/
def IlState.bytes (log : IlState) : List Byte := (List.range log.len).map log.ring

/-- `il_clear`: the array keeps its bytes. -/
def ilClear (log : IlState) : IlState := ⟨log.ring, 0, 0⟩

/-- `memmove(m + dst, m + src, n)` -/
def memmove (m : Mem) (dst src n : ℕ) : Mem := fun k ↦
  if dst ≤ k ∧ k < dst + n then m (src + (k - dst)) else m k

/-- `memcpy(m + dst, s, n)` where `n` is the length of `s`. -/
def memcpy (m : Mem) (dst : ℕ) (s : List Byte) : Mem := fun k ↦
  if dst ≤ k ∧ k < dst + s.length then s.getD (k - dst) 0 else m k

/-- The inner loop of the eviction: the index of the next newline. -/
def nextNewline (log : IlState) (drop : ℕ) : ℕ :=
  if drop < log.len ∧ log.ring drop ≠ newline then nextNewline log (drop + 1) else drop
termination_by log.len - drop

/-- How many bytes one round of the eviction drops. -/
def dropCount (log : IlState) : ℕ :=
  let drop := nextNewline log 0
  let drop := if drop < log.len then drop + 1 else drop
  if drop = 0 then log.len else drop

/-- One round of the eviction loop. -/
def dropOldest (log : IlState) : IlState where
  ring := memmove log.ring 0 (dropCount log) (log.len - dropCount log)
  len := log.len - dropCount log
  records := if 0 < log.records then log.records - 1 else log.records

/-- The eviction loop: records are dropped until `n + 1` more bytes fit. -/
def evict : ℕ → ℕ → IlState → Option IlState
  | 0, _, _ => none
  | fuel + 1, n, log =>
    if ilRingSize - 1 < log.len + n + 1 then evict fuel n (dropOldest log) else some log

/-- The end of `il_append`: the bytes and a newline behind what is stored. -/
def store (log : IlState) (s : List Byte) : IlState where
  ring := memcpy log.ring log.len (s ++ [newline])
  len := log.len + s.length + 1
  records := log.records + 1

def ilAppend (fuel : ℕ) (log : IlState) (s : List Byte) : Option IlState :=
  if s.length = 0 then some log
  else
    let n := if ilRingSize ≤ s.length + 1 then ilRingSize - 2 else s.length
    (evict fuel n log).map fun log ↦ store log (s.take n)

def ilLenBytes (log : IlState) : ℕ := log.len

/-- `il_copy_tail` into a buffer of `cap` bytes: what it copies. -/
def ilCopyTail (log : IlState) (cap : ℕ) : List Byte :=
  if cap = 0 ∨ log.len = 0 then []
  else
    let cap := if log.len < cap then log.len else cap
    (List.range cap).map fun k ↦ log.ring (log.len - cap + k)

/-! ### The callers -/

/-- The size of the buffer of `il_append_esc`. -/
def escSize : ℕ := ilCapMax * 2 + 64

/-- What one payload byte becomes; control bytes without an escape are dropped. -/
def escByte (c : Byte) : List Byte :=
  if c = 0x5c then [0x5c, 0x5c]
  else if c = newline then [0x5c, 0x6e]
  else if c = 0x0d then [0x5c, 0x72]
  else if c = 0x09 then [0x5c, 0x74]
  else if 0x20 ≤ c ∧ c < 0x7f then [c]
  else []

/-- The payload loop of `il_append_esc`: up to the terminating zero, while there is room. -/
def escPayload (tmp : List Byte) : List Byte → List Byte
  | [] => tmp
  | c :: payload =>
    if c ≠ 0 ∧ tmp.length < escSize - 2 then escPayload (tmp ++ escByte c) payload else tmp

/-- The record `il_append_esc` builds. -/
def escRecord (tag payload : List Byte) : List Byte :=
  escPayload (tag.take (escSize - 2)) payload

def ilAppendEsc (fuel : ℕ) (log : IlState) (tag payload : List Byte) : Option IlState :=
  ilAppend fuel log (escRecord tag payload)

/-- `il_capture_putc` for every byte a command prints. -/
def capture (out : List Byte) : List Byte :=
  out.foldl (fun cap c ↦ if cap.length < ilCapMax - 1 then cap ++ [c] else cap) []

/-- The captured output without the line ends behind it. -/
def captured (out : List Byte) : List Byte :=
  (capture out).rdropWhile fun c ↦ c = newline || c = 0x0d

/-- The tag and the payload of the output record. -/
def outRecord (cap : List Byte) : List Byte :=
  if cap.take 5 = ascii "NOC: " then escRecord (ascii "[ERR] ") (cap.drop 5)
  else escRecord (ascii "[OUT] ") cap

/-- `il_end_capture`, after a command that printed `out`. -/
def ilEndCapture (fuel : ℕ) (log : IlState) (cmd out : List Byte) : Option IlState := do
  let log ← ilAppend fuel log (ascii "[TICK]")
  let log ← ilAppendEsc fuel log (ascii "[CMD] ") cmd
  if captured out = [] then some log else ilAppend fuel log (outRecord (captured out))

/-- What `%lld` prints. -/
def signedDecimal (v : BitVec 64) : List Byte :=
  if v.msb then 0x2d :: decimal (-v).toNat else decimal v.toNat

/-- The names `sched_spawn` is called with. -/
inductive TaskName
  | user | dema | demb | draft | corpus
  deriving DecidableEq, Repr

def TaskName.text : TaskName → List Byte
  | .user => ascii "user"
  | .dema => ascii "dema"
  | .demb => ascii "demb"
  | .draft => ascii "draft"
  | .corpus => ascii "corpus"

/-- The record of `il_event_spawn`: the name follows as far as the buffer of 64 bytes goes. -/
def spawnRecord (pid : BitVec 32) (name : TaskName) : List Byte :=
  let rec₁ := sprintk 64 (ascii "[SPAWN] " ++ decimal pid.toNat)
  let rec₂ := if rec₁.length < 63 then rec₁ ++ [0x20] else rec₁
  rec₂ ++ name.text.take (63 - rec₂.length)

def ilEventSpawn (fuel : ℕ) (log : IlState) (pid : BitVec 32) (name : TaskName) : Option IlState :=
  ilAppend fuel log (spawnRecord pid name)

/-- The record of `il_event_exit`, in a buffer of 48 bytes. -/
def exitRecord (pid : BitVec 32) (code : BitVec 64) : List Byte :=
  sprintk 48 (ascii "[EXIT] " ++ decimal pid.toNat ++ [0x20] ++ signedDecimal code)

def ilEventExit (fuel : ℕ) (log : IlState) (pid : BitVec 32) (code : BitVec 64) : Option IlState :=
  ilAppend fuel log (exitRecord pid code)

/-- What appends to the log. -/
inductive Event
  | command (cmd out : List Byte)
  | spawn (pid : BitVec 32) (name : TaskName)
  | exit (pid : BitVec 32) (code : BitVec 64)

def Event.append (fuel : ℕ) (log : IlState) : Event → Option IlState
  | .command cmd out => ilEndCapture fuel log cmd out
  | .spawn pid name => ilEventSpawn fuel log pid name
  | .exit pid code => ilEventExit fuel log pid code

/-- The records of an event, in the order they are appended. -/
def Event.records : Event → List (List Byte)
  | .command cmd out =>
    [ascii "[TICK]", escRecord (ascii "[CMD] ") cmd] ++
      if captured out = [] then [] else [outRecord (captured out)]
  | .spawn pid name => [spawnRecord pid name]
  | .exit pid code => [exitRecord pid code]

end NoOsKernel.Log
