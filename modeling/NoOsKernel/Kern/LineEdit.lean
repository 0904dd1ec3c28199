import NoOsKernel.Lib.Cursor
import NoOsKernel.Kern.Line

/-!
# The line editor edits a list

`line_read` without the history keys is the editor of a list with a cursor: the buffer begins with the
list, and the return leaves it as a string. What a redraw shows is another matter: it prints the
buffer up to a zero that is only written at the return.
-/

set_option autoImplicit false
set_option relaxedAutoImplicit false

namespace NoOsKernel.Kern

open Lib

variable {cap room : ℕ} {s : Line} {e : Edited Byte} {keys : List Byte} {c : Byte}

/-! ### The editor of a list -/

/-- What a key tells the editor. -/
def command (c : Byte) : Option (Edit Byte) :=
  if c = keyBackspace then some .backspace
  else if c = kbdLeft then some .left
  else if c = kbdRight then some .right
  else if c = kbdHome then some .home
  else if c = kbdEnd then some .toEnd
  else if c = kbdDel then some .delete
  else if c = kbdUp ∨ c = kbdDown then none
  else if 0x20 ≤ c.toNat ∧ c ≠ 0x7f then some (.insert c)
  else none

/-- The keys that drop the line. -/
def Cancels (c : Byte) : Prop := c = keyCtrlC ∨ c = keyEsc

instance (c : Byte) : Decidable (Cancels c) := inferInstanceAs (Decidable (_ ∨ _))

/-- The line the keys enter. -/
def editLine (room : ℕ) : Edited Byte → List Byte → Option (List Byte)
  | _, [] => none
  | e, c :: keys =>
    if c = keyEnter then some e.text
    else if Cancels c then some []
    else editLine room ((command c).elim e (e.apply room)) keys

theorem editLine_isSome (hend : ∃ c ∈ keys, c = keyEnter ∨ Cancels c) :
    (editLine room e keys).isSome := by
  induction keys generalizing e with
  | nil =>
    obtain ⟨c, hc, -⟩ := hend
    exact absurd hc List.not_mem_nil
  | cons c keys ih =>
    unfold editLine
    split_ifs with henter hcancel
    · rfl
    · rfl
    · apply ih
      obtain ⟨c', hc', hends⟩ := hend
      obtain rfl | hmem := List.mem_cons.mp hc'
      · exact absurd hends (not_or.mpr ⟨henter, hcancel⟩)
      · exact ⟨c', hmem, hends⟩

/-! ### What the buffer holds -/

/-- The buffer of `cap` bytes holds the list and the variables say where its end and its cursor are. -/
structure Editing (cap : ℕ) (s : Line) (e : Edited Byte) : Prop where
  begins : Begins s.buf.mem e.text
  len_eq : s.len = e.text.length
  cur_eq : s.cur = e.cur
  fits : e.text.length < cap
  nonzero : ∀ c ∈ e.text, c ≠ 0
  inside : ∀ x ∈ s.buf.written, x.1 + x.2 < cap

/-- The cursor is in the text, the text in the buffer, and nothing was written outside. -/
structure InBuffer (cap : ℕ) (s : Line) : Prop where
  cur_le : s.cur ≤ s.len
  len_lt : s.len < cap
  inside : ∀ x ∈ s.buf.written, x.1 + x.2 < cap

theorem Editing.inBuffer (h : Editing cap s e) : InBuffer cap s where
  cur_le := by
    rw [h.cur_eq, h.len_eq]
    exact e.cur_le
  len_lt := h.len_eq ▸ h.fits
  inside := h.inside

theorem Editing.redraw (h : Editing cap s e) : Editing cap s.redraw e :=
  ⟨h.begins, h.len_eq, h.cur_eq, h.fits, h.nonzero, h.inside⟩

theorem Editing.start (hcap : 1 ≤ cap) (s : Line) : Editing cap s.start .empty :=
  Editing.redraw ⟨Begins.nil, rfl, rfl, hcap, fun _ hc ↦ absurd hc List.not_mem_nil,
    fun _ hx ↦ absurd hx List.not_mem_nil⟩

/-- Moving the cursor. -/
theorem Editing.moveTo (h : Editing cap s e) {cur : ℕ} (hcur : cur ≤ e.text.length) :
    Editing cap { s with cur } (e.moveTo cur hcur) :=
  ⟨h.begins, h.len_eq, rfl, h.fits, h.nonzero, h.inside⟩

theorem put_mem (m : Tracked) (p i k : ℕ) (v : Byte) :
    (m.put p i v).mem k = if k = p + i then v else m.mem k := by
  change Function.update m.mem (p + i) v k = _
  rw [Function.update_apply]

theorem inside_memmove {m : Tracked} {d s n : ℕ} (hm : ∀ x ∈ m.written, x.1 + x.2 < cap)
    (hn : d + n ≤ cap) : ∀ x ∈ (memmove m d s n).written, x.1 + x.2 < cap := by
  intro x hx
  obtain hold | ⟨hp, hi⟩ := memmove_written.mp hx
  · exact hm x hold
  · omega

theorem inside_put {m : Tracked} {p i : ℕ} {v : Byte} (hm : ∀ x ∈ m.written, x.1 + x.2 < cap)
    (hi : p + i < cap) : ∀ x ∈ (m.put p i v).written, x.1 + x.2 < cap := by
  intro x hx
  obtain rfl | hold := List.mem_cons.mp hx
  · exact hi
  · exact hm x hold

/-! ### One key -/

theorem Editing.insert (h : Editing cap s e) (hc : 0x20 ≤ c.toNat ∧ c ≠ 0x7f) :
    Editing cap (s.insert cap c) (e.apply (cap - 1) (.insert c)) := by
  have hle := e.cur_le
  have hlen := h.len_eq
  have hcur := h.cur_eq
  have hfits := h.fits
  unfold Line.insert
  change Editing cap _ (if e.text.length < cap - 1 then e.insert c else e)
  by_cases hroom : s.len + 1 < cap
  · rw [if_pos ⟨hc.1, hc.2, hroom⟩, if_pos (by omega)]
    refine Editing.redraw ⟨?_, ?_, ?_, ?_, fun x hx ↦ ?_, ?_⟩
    · apply h.begins.insertIdx hle
      · intro i hi
        rw [put_mem, if_neg (by omega), memmove_mem, if_neg (by omega)]
      · rw [put_mem, if_pos (by omega)]
      · intro i hi hpi
        rw [put_mem, if_neg (by omega), memmove_mem, if_pos ⟨by omega, by omega⟩]
        congr 1
        omega
    · change s.len + 1 = _
      rw [Edited.length_insert, hlen]
    · change s.cur + 1 = e.cur + 1
      rw [hcur]
    · rw [Edited.length_insert]
      omega
    · obtain rfl | hold := (List.mem_insertIdx hle).mp hx
      · intro hzero
        rw [hzero] at hc
        exact absurd hc.1 (by decide)
      · exact h.nonzero x hold
    · exact inside_put (inside_memmove h.inside (by omega)) (by omega)
  · rw [if_neg (fun hall ↦ hroom hall.2.2), if_neg (by omega)]
    exact h

theorem Editing.backspace (h : Editing cap s e) :
    Editing cap s.backspace (e.apply (cap - 1) .backspace) := by
  have hle := e.cur_le
  have hlen := h.len_eq
  have hcur := h.cur_eq
  have hfits := h.fits
  unfold Line.backspace
  change Editing cap _ e.backspace
  by_cases hpos : 0 < e.cur
  · have htext : e.backspace.text = e.text.eraseIdx (e.cur - 1) := if_pos hpos
    have hlen' : e.backspace.text.length = e.text.length - 1 := by
      rw [htext, List.length_eraseIdx_of_lt (by omega)]
    rw [if_pos (hcur ▸ hpos)]
    refine Editing.redraw ⟨?_, ?_, ?_, ?_, fun x hx ↦ ?_, ?_⟩
    · rw [htext]
      apply h.begins.eraseIdx (by omega)
      · intro i hi
        rw [memmove_mem, if_neg (by omega)]
      · intro i hi hpi
        rw [memmove_mem, if_pos ⟨by omega, by omega⟩]
        congr 1
        omega
    · rw [hlen', ← hlen]
    · change s.cur - 1 = e.cur - 1
      rw [hcur]
    · omega
    · rw [htext] at hx
      exact h.nonzero x (List.mem_of_mem_eraseIdx hx)
    · exact inside_memmove h.inside (by omega)
  · have hsame : e.backspace = e := Edited.ext (if_neg hpos) (by change e.cur - 1 = e.cur; omega)
    rw [if_neg (hcur ▸ hpos), hsame]
    exact h

theorem Editing.delete (h : Editing cap s e) :
    Editing cap s.delete (e.apply (cap - 1) .delete) := by
  have hle := e.cur_le
  have hlen := h.len_eq
  have hcur := h.cur_eq
  have hfits := h.fits
  unfold Line.delete
  change Editing cap _ e.delete
  by_cases hlt : e.cur < e.text.length
  · have hlen' : e.delete.text.length = e.text.length - 1 := List.length_eraseIdx_of_lt hlt
    rw [if_pos (by omega)]
    refine Editing.redraw ⟨?_, ?_, hcur, by omega, fun x hx ↦ ?_, ?_⟩
    · apply h.begins.eraseIdx hlt
      · intro i hi
        rw [memmove_mem, if_neg (by omega)]
      · intro i hi hpi
        rw [memmove_mem, if_pos ⟨by omega, by omega⟩]
        congr 1
        omega
    · rw [hlen', ← hlen]
    · exact h.nonzero x (List.mem_of_mem_eraseIdx hx)
    · exact inside_memmove h.inside (by omega)
  · have hsame : e.delete = e := Edited.ext (List.eraseIdx_of_length_le (by omega)) rfl
    rw [if_neg (by omega), hsame]
    exact h

theorem Editing.left (h : Editing cap s e) : Editing cap s.left (e.apply (cap - 1) .left) := by
  unfold Line.left
  have hmoved := h.moveTo (Nat.le_trans (Nat.sub_le e.cur 1) e.cur_le)
  split_ifs with hpos
  · rw [h.cur_eq]
    exact hmoved.redraw
  · have hcur : s.cur = e.cur - 1 := by
      rw [h.cur_eq] at hpos ⊢
      omega
    exact ⟨h.begins, h.len_eq, hcur, h.fits, h.nonzero, h.inside⟩

theorem Editing.right (h : Editing cap s e) : Editing cap s.right (e.apply (cap - 1) .right) := by
  unfold Line.right
  have hle := e.cur_le
  have hmoved := h.moveTo (Nat.min_le_right (e.cur + 1) e.text.length)
  have hcur := h.cur_eq
  have hlen := h.len_eq
  split_ifs with hlt
  · rw [show s.cur + 1 = min (e.cur + 1) e.text.length by omega]
    exact hmoved.redraw
  · have hmin : s.cur = min (e.cur + 1) e.text.length := by omega
    exact ⟨h.begins, hlen, hmin, h.fits, h.nonzero, h.inside⟩

theorem Editing.home (h : Editing cap s e) : Editing cap s.home (e.apply (cap - 1) .home) := by
  unfold Line.home
  split_ifs with hne
  · exact (h.moveTo (Nat.zero_le _)).redraw
  · exact ⟨h.begins, h.len_eq, not_not.mp hne, h.fits, h.nonzero, h.inside⟩

theorem Editing.toEnd (h : Editing cap s e) : Editing cap s.toEnd (e.apply (cap - 1) .toEnd) := by
  unfold Line.toEnd
  split_ifs with hne
  · exact Editing.redraw ⟨h.begins, h.len_eq, h.len_eq, h.fits, h.nonzero, h.inside⟩
  · exact ⟨h.begins, h.len_eq, (not_not.mp hne).trans h.len_eq, h.fits, h.nonzero, h.inside⟩

/-- A key that neither ends the line nor asks for the history. -/
structure Ordinary (c : Byte) : Prop where
  not_enter : c ≠ keyEnter
  not_cancel : ¬ Cancels c
  not_up : c ≠ kbdUp
  not_down : c ≠ kbdDown

/-- What an ordinary key leaves of the history: a recall goes on exactly if the text is as it was. -/
structure KeepsHistory (s s' : Line) : Prop where
  hist_eq : s'.hist = s.hist
  count_eq : s'.histCount = s.histCount
  pos : s'.histPos = s.histCount ∨ s'.histPos = s.histPos ∧ s'.len = s.len

theorem KeepsHistory.refl (s : Line) : KeepsHistory s s := ⟨rfl, rfl, .inr ⟨rfl, rfl⟩⟩

theorem KeepsHistory.ite {s t : Line} {p : Prop} [Decidable p] (ht : KeepsHistory s t) :
    KeepsHistory s (if p then t else s) := by
  split_ifs
  · exact ht
  · exact KeepsHistory.refl s

/-- An ordinary key does to the list what it tells the editor. -/
theorem Editing.key (h : Editing cap s e) (hc : Ordinary c) : ∃ s', s.key cap c = (s', none) ∧
    Editing cap s' ((command c).elim e (e.apply (cap - 1))) ∧ KeepsHistory s s' := by
  have moved : ∀ s' : Line, s'.hist = s.hist → s'.histCount = s.histCount → s'.histPos = s.histPos →
      s'.len = s.len → KeepsHistory s s' := fun _ hh hn hp hl ↦ ⟨hh, hn, .inr ⟨hp, hl⟩⟩
  unfold Line.key command
  rw [if_neg hc.not_enter]
  by_cases hback : c = keyBackspace
  · rw [if_pos hback, if_pos hback]
    exact ⟨_, rfl, h.backspace, KeepsHistory.ite ⟨rfl, rfl, .inl rfl⟩⟩
  rw [if_neg hback, if_neg hback]
  by_cases hleft : c = kbdLeft
  · rw [if_pos hleft, if_pos hleft]
    exact ⟨_, rfl, h.left, KeepsHistory.ite (moved _ rfl rfl rfl rfl)⟩
  rw [if_neg hleft, if_neg hleft]
  by_cases hright : c = kbdRight
  · rw [if_pos hright, if_pos hright]
    exact ⟨_, rfl, h.right, KeepsHistory.ite (moved _ rfl rfl rfl rfl)⟩
  rw [if_neg hright, if_neg hright]
  by_cases hhome : c = kbdHome
  · rw [if_pos hhome, if_pos hhome]
    exact ⟨_, rfl, h.home, KeepsHistory.ite (moved _ rfl rfl rfl rfl)⟩
  rw [if_neg hhome, if_neg hhome]
  by_cases hend : c = kbdEnd
  · rw [if_pos hend, if_pos hend]
    exact ⟨_, rfl, h.toEnd, KeepsHistory.ite (moved _ rfl rfl rfl rfl)⟩
  rw [if_neg hend, if_neg hend]
  by_cases hdel : c = kbdDel
  · rw [if_pos hdel, if_pos hdel]
    exact ⟨_, rfl, h.delete, KeepsHistory.ite ⟨rfl, rfl, .inl rfl⟩⟩
  rw [if_neg hdel, if_neg hdel, if_neg hc.not_up, if_neg hc.not_down,
    if_neg (show ¬ (c = keyCtrlC ∨ c = keyEsc) from hc.not_cancel), if_neg (not_or.mpr ⟨hc.not_up, hc.not_down⟩)]
  refine ⟨_, rfl, ?_, KeepsHistory.ite ⟨rfl, rfl, .inl rfl⟩⟩
  by_cases hchar : 0x20 ≤ c.toNat ∧ c ≠ 0x7f
  · rw [if_pos hchar]
    exact h.insert hchar
  · rw [if_neg hchar, Line.insert, if_neg (fun hall ↦ hchar ⟨hall.1, hall.2.1⟩)]
    exact h

/-! ### The end of a line -/

/-- The history is all that `hist_add` changes. -/
theorem histAdd_same (s : Line) : s.histAdd.buf = s.buf ∧ s.histAdd.len = s.len ∧
    s.histAdd.cur = s.cur := by
  unfold Line.histAdd Line.dropOldest
  split_ifs <;> exact ⟨rfl, rfl, rfl⟩

/-- The buffer with the end of its text. -/
theorem Editing.terminated (h : Editing cap s e) : StrAt (s.buf.put 0 s.len 0).mem 0 e.text where
  byte i hi := by
    have hlen := h.len_eq
    rw [put_mem, if_neg (by omega), Nat.zero_add]
    exact h.begins i hi
  nonzero := h.nonzero
  terminated := by rw [put_mem, if_pos (by rw [h.len_eq])]

/-- Enter returns the text. -/
theorem Editing.enter (h : Editing cap s e) :
    StrAt s.enter.buf.mem 0 e.text ∧ InBuffer cap s.enter := by
  obtain ⟨hbuf, hlen, hcur⟩ := histAdd_same { s with buf := s.buf.put 0 s.len 0 }
  have hin := h.inBuffer
  refine ⟨hbuf.symm ▸ h.terminated, ?_, ?_, ?_⟩
  · exact hlen.symm ▸ hcur.symm ▸ hin.cur_le
  · exact hlen.symm ▸ hin.len_lt
  · exact hbuf.symm ▸ inside_put hin.inside (by simpa using hin.len_lt)

/-- Ctrl+C and Esc return the empty text. -/
theorem Editing.cancel (h : Editing cap s e) :
    StrAt s.cancel.buf.mem 0 [] ∧ InBuffer cap s.cancel := by
  have hcap : 0 < cap := Nat.zero_lt_of_lt h.fits
  refine ⟨strAt_nil.mpr ?_, Nat.le_refl 0, hcap, inside_put h.inside hcap⟩
  change (s.buf.put 0 0 0).mem 0 = 0
  rw [put_mem, if_pos rfl]

/-! ### All the keys of a line -/

/-- The loop of `line_read` enters the line that the editor of the list enters. -/
theorem Editing.loop (h : Editing cap s e) (hkeys : kbdUp ∉ keys ∧ kbdDown ∉ keys) :
    InBuffer cap (s.loop cap keys).1 ∧
      (s.loop cap keys).2 = (editLine (cap - 1) e keys).map List.length ∧
      ∀ text ∈ editLine (cap - 1) e keys, StrAt (s.loop cap keys).1.buf.mem 0 text := by
  induction keys generalizing s e with
  | nil => exact ⟨h.inBuffer, rfl, fun _ htext ↦ absurd htext (Option.not_mem_none _)⟩
  | cons c keys ih =>
    rw [List.mem_cons, List.mem_cons, not_or, not_or] at hkeys
    obtain ⟨⟨hup, hups⟩, hdown, hdowns⟩ := hkeys
    by_cases henter : c = keyEnter
    · have hkey : s.key cap c = (s.enter, some s.len) := if_pos henter
      obtain ⟨hstr, hin⟩ := h.enter
      rw [Line.loop, hkey, editLine, if_pos henter]
      refine ⟨hin, ?_, fun text htext ↦ ?_⟩
      · rw [Option.map_some, h.len_eq]
      · rwa [← Option.mem_some.mp htext]
    by_cases hcancel : Cancels c
    · have hkey : s.key cap c = (s.cancel, some 0) := by
        obtain rfl | rfl := hcancel <;> rfl
      obtain ⟨hstr, hin⟩ := h.cancel
      rw [Line.loop, hkey, editLine, if_neg henter, if_pos hcancel]
      refine ⟨hin, rfl, fun text htext ↦ ?_⟩
      rwa [← Option.mem_some.mp htext]
    · obtain ⟨s', hkey, h', -⟩ := h.key ⟨henter, hcancel, Ne.symm hup, Ne.symm hdown⟩
      rw [Line.loop, hkey, editLine, if_neg henter, if_neg hcancel]
      exact ih h' ⟨hups, hdowns⟩

/-- `line_read` enters the line that the editor of the list enters: it returns its length, leaves it as
a string, and after every key cursor, text and writes are inside the buffer. -/
theorem lineRead_refines (hcap : 1 ≤ cap) (s : Line) (hkeys : kbdUp ∉ keys ∧ kbdDown ∉ keys)
    (hend : ∃ c ∈ keys.getLast?, c = keyEnter ∨ Cancels c) :
    ∃ text, editLine (cap - 1) .empty keys = some text ∧
      (lineRead cap s keys).2 = some text.length ∧
      StrAt (lineRead cap s keys).1.buf.mem 0 text ∧
      ∀ n, InBuffer cap (lineRead cap s (keys.take n)).1 := by
  have hread : ∀ keys, lineRead cap s keys = s.start.loop cap keys := fun _ ↦ if_neg (by omega)
  obtain ⟨c, hlast, hc⟩ := hend
  have hmem : ∃ c ∈ keys, c = keyEnter ∨ Cancels c := ⟨c, List.mem_of_getLast? hlast, hc⟩
  obtain ⟨text, htext⟩ := Option.isSome_iff_exists.mp
    (editLine_isSome hmem)
  obtain ⟨-, hlen, hstr⟩ := (Editing.start hcap s).loop hkeys
  refine ⟨text, htext, ?_, ?_, fun n ↦ ?_⟩
  · rw [hread, hlen, htext, Option.map_some]
  · rw [hread]
    exact hstr text htext
  · rw [hread]
    exact ((Editing.start hcap s).loop ⟨fun hup ↦ hkeys.1 (List.mem_of_mem_take hup),
      fun hdown ↦ hkeys.2 (List.mem_of_mem_take hdown)⟩).1

/-- The shell's buffer and history at boot, with `x` left in the buffer. -/
def leftover : Line := (Repl.boot fun i ↦ if i = 0 then 0x78 else 0).line

/-- Two letters, a third one that a buffer of three bytes has no room for, Backspace and Enter. -/
def fullLine : List Byte := [0x61, 0x62, 0x63, keyBackspace, keyEnter]

theorem lineRead_refines_fullLine :
    ∃ text, editLine (3 - 1) .empty fullLine = some text ∧
      (lineRead 3 leftover fullLine).2 = some text.length ∧
      StrAt (lineRead 3 leftover fullLine).1.buf.mem 0 text ∧
      ∀ n, InBuffer 3 (lineRead 3 leftover (fullLine.take n)).1 :=
  lineRead_refines (by decide) leftover (by decide) ⟨keyEnter, rfl, .inl rfl⟩

/-! ### What a redraw shows -/

namespace Redraw

/-- The text of the line. -/
def text (r : Redraw) : List Byte := (List.range r.len).map r.buf

/-- A redraw shows the text, and reads nothing behind it. -/
structure Exact (r : Redraw) : Prop where
  shown_eq : r.shown = r.text
  reads_lt : ∀ i ∈ r.reads, i < r.len

theorem shown_eq_text_iff_len (r : Redraw) : r.shown = r.text ↔ strlen r.buf 0 = r.len := by
  unfold shown text
  refine ⟨fun h ↦ ?_, fun h ↦ by rw [h]⟩
  have hlen := congrArg List.length h
  simpa only [List.length_map, List.length_range] using hlen

/-- The buffer is printed as a string, so what is printed ends before a byte that was read. -/
theorem not_exact (r : Redraw) : ¬ r.Exact := by
  intro h
  have hlen := (shown_eq_text_iff_len r).mp h.shown_eq
  have hread : r.len ∈ r.reads := by
    unfold reads
    rw [hlen]
    exact List.mem_append_left _ (List.mem_append_left _ List.self_mem_range_succ)
  exact absurd (h.reads_lt r.len hread) (Nat.lt_irrefl _)

/-- A redraw shows the text exactly if there is a zero behind it already. -/
theorem shown_eq_text_iff (r : Redraw) (hlen : r.len < addressSpace) (hnonzero : ∀ c ∈ r.text, c ≠ 0) :
    r.shown = r.text ↔ r.buf r.len = 0 := by
  have hlength : r.text.length = r.len := by rw [text, List.length_map, List.length_range]
  rw [shown_eq_text_iff_len]
  constructor
  · intro hstr
    have hend := strlen_end (hstr.symm ▸ hlen)
    rwa [hstr, Nat.zero_add] at hend
  · intro hzero
    have hstr : StrAt r.buf 0 r.text := by
      refine ⟨fun i hi ↦ ?_, hnonzero, ?_⟩
      · rw [Nat.zero_add]
        exact Begins.map_range r.buf r.len i hi
      · rw [hlength, Nat.zero_add, hzero]
    rw [hstr.strlen_eq (hlength.symm ▸ hlen), hlength]

end Redraw

theorem key_redraws (cap : ℕ) (s : Line) (c : Byte) {r : Redraw} (hr : r ∈ s.redraws) :
    r ∈ (s.key cap c).1.redraws := by
  have hadd : ∀ s : Line, s.histAdd.redraws = s.redraws := by
    intro s
    unfold Line.histAdd Line.dropOldest
    split_ifs <;> rfl
  have hstep : ∀ (p : Prop) [Decidable p] (t : Line), t.redraws = s.redraws →
      r ∈ (if p then t.redraw else s).redraws := by
    intro p _ t ht
    split_ifs
    · exact List.mem_cons_of_mem _ (ht ▸ hr)
    · exact hr
  unfold Line.key
  split_ifs
  · exact (hadd _).symm ▸ hr
  · exact hstep _ _ rfl
  · exact hstep _ _ rfl
  · exact hstep _ _ rfl
  · exact hstep _ _ rfl
  · exact hstep _ _ rfl
  · exact hstep _ _ rfl
  · exact hstep _ _ rfl
  · refine hstep _ _ ?_
    change (ite _ _ _ : Line).redraws = _
    split_ifs <;> rfl
  · exact hr
  · exact hstep _ _ rfl

theorem loop_redraws (cap : ℕ) (s : Line) (keys : List Byte) {r : Redraw} (hr : r ∈ s.redraws) :
    r ∈ (s.loop cap keys).1.redraws := by
  induction keys generalizing s with
  | nil => exact hr
  | cons c keys ih =>
    have hkey := key_redraws cap s c hr
    rw [Line.loop]
    split
    · next heq => rwa [heq] at hkey
    · next heq =>
      rw [heq] at hkey
      exact ih _ hkey

/-- Whatever the buffer holds and whatever keys arrive, not every redraw is exact: the first one
already reads the byte at index 0 of an empty line. -/
theorem redraws_not_exact (hcap : 1 ≤ cap) (s : Line) (keys : List Byte) :
    ¬ ∀ r ∈ (lineRead cap s keys).1.redraws, r.Exact := by
  intro h
  rw [lineRead, if_neg (by omega)] at h
  have hfirst : ⟨s.buf.mem, 0, 0, 0⟩ ∈ s.start.redraws := List.mem_cons_self
  exact Redraw.not_exact _ (h _ (loop_redraws cap s.start keys hfirst))

theorem redraws_not_exact_leftover : ¬ ∀ r ∈ (lineRead replCap leftover []).1.redraws, r.Exact :=
  redraws_not_exact (by decide) leftover []

/-- The first redraw shows the `x` that was left in the buffer, though the line is empty. -/
theorem shown_ne_text_leftover :
    ¬ ∀ r ∈ (lineRead replCap leftover []).1.redraws, r.shown = r.text := by
  intro h
  have hfirst := h ⟨leftover.buf.mem, 0, 0, 0⟩ List.mem_cons_self
  rw [Redraw.shown_eq_text_iff _ (by decide) (fun c hc ↦ absurd hc List.not_mem_nil)] at hfirst
  exact absurd hfirst (by decide)

end NoOsKernel.Kern
