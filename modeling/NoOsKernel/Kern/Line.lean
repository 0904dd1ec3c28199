import NoOsKernel.Kern.Str

/-!
# The line editor

`kernel/kern/line.c`, and the loop of `noc_repl` around it. The buffer and the history are memories of
their own, so what is written behind the history changes neither its count nor the buffer. A call of
`line_redraw` is kept with its arguments; what it sends to the two screens and what it reads is
computed from them.
-/

set_option autoImplicit false
set_option relaxedAutoImplicit false

namespace NoOsKernel.Kern

open Lib

/-- `HIST_MAX` -/
def histMax : ℕ := 16

/-- `HIST_LEN` -/
def histLen : ℕ := 256

/-! ### `line_redraw` -/

/-- The arguments of `line_redraw`, with the buffer as it stands. -/
structure Redraw where
  buf : Mem
  len : ℕ
  cur : ℕ
  prevLen : ℕ

namespace Redraw

/-- What `out2(buf)` sends to a screen. -/
def shown (r : Redraw) : List Byte := (List.range (strlen r.buf 0)).map r.buf

/-- The indices of `buf` that are read: both screens read the string and its end. -/
def reads (r : Redraw) : List ℕ :=
  List.range (strlen r.buf 0 + 1) ++ List.range (strlen r.buf 0 + 1) ++ List.range r.cur

end Redraw

/-! ### The state -/

/-- The variables of `line_read` and the history. -/
structure Line where
  buf : Tracked
  hist : Tracked
  histCount : ℕ
  histPos : ℕ
  len : ℕ
  cur : ℕ
  prevLen : ℕ
  redraws : List Redraw

namespace Line

/-- `line_redraw(prompt, buf, len, cur, &prev_len)` -/
def redraw (s : Line) : Line :=
  { s with redraws := ⟨s.buf.mem, s.len, s.cur, s.prevLen⟩ :: s.redraws, prevLen := s.len }

/-- `for (usize i = 1; i < hist_count; i++) memcpy(history[i - 1], history[i], HIST_LEN)`, from the
slot `i` on. -/
def shiftSlots : ℕ → ℕ → Tracked → Tracked
  | 0, _, h => h
  | n + 1, i, h => shiftSlots n (i + 1) (memcpy h ((i - 1) * histLen) (i * histLen) histLen)

/-- The oldest entry of a full history goes. -/
def dropOldest (s : Line) : Line :=
  if histMax ≤ s.histCount then
    { s with hist := shiftSlots (s.histCount - 1) 1 s.hist, histCount := histMax - 1 }
  else s

/-- `strcpy(history[hist_count], line); hist_count++;` -/
def append (s : Line) : Line :=
  { s with
    hist := strcpy s.hist (s.histCount * histLen) s.buf.mem 0
    histCount := s.histCount + 1 }

/-- `hist_add(buf)` -/
def histAdd (s : Line) : Line :=
  if s.buf.mem 0 = 0 then s
  else if 0 < s.histCount ∧
      strcmp s.hist.mem ((s.histCount - 1) * histLen) s.buf.mem 0 = 0 then s
  else s.dropOldest.append

/-! ### The keys -/

/-- `strcpy(buf, history[hist_pos]); len = strlen(buf);` -/
def recallSlot (s : Line) : Line :=
  let buf := strcpy s.buf 0 s.hist.mem (s.histPos * histLen)
  { s with buf, len := strlen buf.mem 0 }

/-- `'\b'` -/
def backspace (s : Line) : Line :=
  if 0 < s.cur then
    { s with
      buf := memmove s.buf (s.cur - 1) s.cur (s.len - s.cur)
      len := s.len - 1
      cur := s.cur - 1
      histPos := s.histCount }.redraw
  else s

/-- `KBD_LEFT` -/
def left (s : Line) : Line := if 0 < s.cur then { s with cur := s.cur - 1 }.redraw else s

/-- `KBD_RIGHT` -/
def right (s : Line) : Line := if s.cur < s.len then { s with cur := s.cur + 1 }.redraw else s

/-- `KBD_HOME` -/
def home (s : Line) : Line := if s.cur ≠ 0 then { s with cur := 0 }.redraw else s

/-- `KBD_END` -/
def toEnd (s : Line) : Line := if s.cur ≠ s.len then { s with cur := s.len }.redraw else s

/-- `KBD_DEL` -/
def delete (s : Line) : Line :=
  if s.cur < s.len then
    { s with
      buf := memmove s.buf s.cur (s.cur + 1) (s.len - s.cur - 1)
      len := s.len - 1
      histPos := s.histCount }.redraw
  else s

/-- `KBD_UP` -/
def up (s : Line) : Line :=
  if 0 < s.histCount ∧ 0 < s.histPos then
    let s := { s with histPos := s.histPos - 1 }.recallSlot
    { s with cur := s.len }.redraw
  else s

/-- `KBD_DOWN` -/
def down (s : Line) : Line :=
  if s.histPos < s.histCount then
    let s := { s with histPos := s.histPos + 1 }
    let s := if s.histPos < s.histCount then s.recallSlot else { s with len := 0 }
    { s with cur := s.len }.redraw
  else s

/-- `default`: `c` goes into the buffer, if it is a character and there is room. -/
def insert (cap : ℕ) (s : Line) (c : Byte) : Line :=
  if 0x20 ≤ c.toNat ∧ c ≠ 0x7f ∧ s.len + 1 < cap then
    { s with
      buf := (memmove s.buf (s.cur + 1) s.cur (s.len - s.cur)).put 0 s.cur c
      len := s.len + 1
      cur := s.cur + 1
      histPos := s.histCount }.redraw
  else s

/-- `'\n'`: the line ends, and goes into the history. -/
def enter (s : Line) : Line := { s with buf := s.buf.put 0 s.len 0 }.histAdd

/-- Ctrl+C and Esc. -/
def cancel (s : Line) : Line :=
  { s with buf := s.buf.put 0 0 0, len := 0, cur := 0, histPos := s.histCount }

end Line

/-- The codes of the keys beside the characters. -/
def kbdUp : Byte := 0x80
def kbdDown : Byte := 0x81
def kbdLeft : Byte := 0x82
def kbdRight : Byte := 0x83
def kbdHome : Byte := 0x84
def kbdEnd : Byte := 0x85
def kbdDel : Byte := 0x86
def keyEnter : Byte := 0x0a
def keyBackspace : Byte := 0x08
def keyCtrlC : Byte := 0x03
def keyEsc : Byte := 0x1b

/-- The switch of `line_read`: the state after the key, and the length that is returned, if the line
has ended. -/
def Line.key (cap : ℕ) (s : Line) (c : Byte) : Line × Option ℕ :=
  if c = keyEnter then (s.enter, some s.len)
  else if c = keyBackspace then (s.backspace, none)
  else if c = kbdLeft then (s.left, none)
  else if c = kbdRight then (s.right, none)
  else if c = kbdHome then (s.home, none)
  else if c = kbdEnd then (s.toEnd, none)
  else if c = kbdDel then (s.delete, none)
  else if c = kbdUp then (s.up, none)
  else if c = kbdDown then (s.down, none)
  else if c = keyCtrlC ∨ c = keyEsc then (s.cancel, some 0)
  else (s.insert cap c, none)

/-- The beginning of `line_read`, up to its loop. -/
def Line.start (s : Line) : Line :=
  { s with
    buf := ⟨s.buf.mem, []⟩
    len := 0
    cur := 0
    prevLen := 0
    histPos := s.histCount
    redraws := [] }.redraw

/-- The loop of `line_read` over the keys that arrive, up to the return. -/
def Line.loop (cap : ℕ) : Line → List Byte → Line × Option ℕ
  | s, [] => (s, none)
  | s, c :: keys =>
    match s.key cap c with
    | (s, some n) => (s, some n)
    | (s, none) => s.loop cap keys

/-- `line_read(buf, cap, prompt)`, while the keys arrive. -/
def lineRead (cap : ℕ) (s : Line) (keys : List Byte) : Line × Option ℕ :=
  if cap = 0 then (s, some 0) else s.start.loop cap keys

/-! ### `noc_repl` -/

/-- `sizeof(line)` -/
def replCap : ℕ := 512

/-- The shell at its prompt: the editor, and the lines that were entered, the oldest first. -/
structure Repl where
  line : Line
  entered : List (List Byte)

/-- One key at the prompt; after the end of a line `noc_repl` calls `line_read` again. -/
def Repl.key (s : Repl) (c : Byte) : Repl :=
  match s.line.key replCap c with
  | (line, none) => { s with line }
  | (line, some n) => ⟨line.start, s.entered ++ [(List.range n).map line.buf.mem]⟩

/-- The shell after some keys. -/
def Repl.keys (s : Repl) (cs : List Byte) : Repl := cs.foldl Repl.key s

/-- The shell at its first prompt, with a buffer that holds anything. -/
def Repl.boot (buf : Mem) : Repl where
  line := Line.start ⟨⟨buf, []⟩, ⟨fun _ ↦ 0, []⟩, 0, 0, 0, 0, 0, []⟩
  entered := []

end NoOsKernel.Kern
