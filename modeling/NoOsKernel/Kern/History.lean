import NoOsKernel.Kern.LineEdit
import NoOsKernel.Lib.Recent

/-!
# The history of the shell

The shell's buffer holds twice what a slot of the history holds. As long as no line of 256 bytes or
more is entered, the history holds the last lines and Up finds them; the first longer line is written
beyond its slot.
-/

set_option autoImplicit false
set_option relaxedAutoImplicit false

namespace NoOsKernel.Kern

open Lib

variable {s : Line} {e : Edited Byte} {slots : List (List Byte)} {t : List Byte} {cap n i k : ℕ}

/-- The lines the history ought to hold, the oldest first. -/
def kept (lines : List (List Byte)) : List (List Byte) := freshEnd histMax (lines.filter (· ≠ []))

/-- Every byte written to the history went through a slot and is in it. -/
def InSlots (s : Line) : Prop :=
  ∀ x ∈ s.hist.written, (∃ slot < histMax, x.1 = slot * histLen) ∧ x.2 < histLen

/-- The history holds these lines. -/
structure Slots (s : Line) (slots : List (List Byte)) : Prop where
  count_eq : s.histCount = slots.length
  stored : ∀ j, ∀ t ∈ slots[j]?, StrAt s.hist.mem (j * histLen) t
  fits : ∀ t ∈ slots, t.length < histLen
  ne_nil : ∀ t ∈ slots, t ≠ []
  length_le : slots.length ≤ histMax
  inSlots : InSlots s

theorem histLen_lt_addressSpace : histLen < addressSpace := by decide

/-! ### Making room -/

theorem memcpy_mem {m : Tracked} {d s : ℕ} (hds : d ≤ s) : (memcpy m d s n).mem k =
    if d ≤ k ∧ k < d + n then m.mem (s + (k - d)) else m.mem k := by
  rw [memcpy, copyForward_mem hds, Nat.add_zero]

theorem shiftSlots_mem {h : Tracked} : (Line.shiftSlots n (i + 1) h).mem k =
    if i * histLen ≤ k ∧ k < (i + n) * histLen then h.mem (k + histLen) else h.mem k := by
  induction n generalizing i h with
  | zero =>
    rw [Line.shiftSlots, Nat.add_zero, if_neg (by omega)]
  | succ n ih =>
    have hnext : (i + 1) * histLen = i * histLen + histLen := Nat.succ_mul i histLen
    have hend : (i + (n + 1)) * histLen = (i + n) * histLen + histLen := Nat.succ_mul (i + n) histLen
    have hend' : i + 1 + n = i + (n + 1) := by omega
    have hle : i * histLen ≤ (i + n) * histLen := Nat.mul_le_mul_right _ (Nat.le_add_right i n)
    rw [Line.shiftSlots, ih, Nat.add_sub_cancel, hend', hnext, hend,
      memcpy_mem (Nat.le_add_right _ _), memcpy_mem (Nat.le_add_right _ _)]
    split_ifs <;> first | omega | exact congrArg h.mem (by omega)

theorem shiftSlots_one_mem {h : Tracked} : (Line.shiftSlots n 1 h).mem k =
    if k < n * histLen then h.mem (k + histLen) else h.mem k := by
  rw [← Nat.zero_add 1, shiftSlots_mem, Nat.zero_mul, Nat.zero_add]
  simp only [Nat.zero_le, true_and]

theorem shiftSlots_written {h : Tracked} {x : ℕ × ℕ}
    (hx : x ∈ (Line.shiftSlots n (i + 1) h).written) :
    x ∈ h.written ∨ (∃ slot < i + n, x.1 = slot * histLen) ∧ x.2 < histLen := by
  induction n generalizing i h with
  | zero => exact .inl hx
  | succ n ih =>
    obtain hcopied | ⟨⟨slot, hslot, hp⟩, hoff⟩ := ih hx
    · rw [Nat.add_sub_cancel, memcpy, copyForward_written] at hcopied
      obtain hold | ⟨hp, -, hoff⟩ := hcopied
      · exact .inl hold
      · exact .inr ⟨⟨i, by omega, hp⟩, by omega⟩
    · exact .inr ⟨⟨slot, by omega, hp⟩, hoff⟩

theorem Slots.dropOldest (h : Slots s slots) :
    Slots s.dropOldest (if histMax ≤ slots.length then slots.tail else slots) ∧
      s.dropOldest.histCount < histMax ∧ s.dropOldest.buf = s.buf := by
  have hcount := h.count_eq
  have hle := h.length_le
  unfold Line.dropOldest
  by_cases hfull : histMax ≤ slots.length
  · have hlen : slots.length = histMax := Nat.le_antisymm hle hfull
    rw [if_pos (hcount ▸ hfull), if_pos hfull, hcount, hlen]
    have hlast : histMax - 1 < histMax := by decide
    refine ⟨⟨?_, fun j t ht ↦ ?_, fun t ht ↦ h.fits t (List.mem_of_mem_tail ht),
      fun t ht ↦ h.ne_nil t (List.mem_of_mem_tail ht), ?_, fun x hx ↦ ?_⟩, hlast, rfl⟩
    · rw [List.length_tail, hlen]
    · rw [List.getElem?_tail] at ht
      have hj : j + 1 < slots.length := by
        by_contra hge
        rw [List.getElem?_eq_none (Nat.le_of_not_lt hge)] at ht
        exact absurd ht (Option.not_mem_none _)
      have hfit := h.fits t (List.mem_of_getElem? ht)
      apply (h.stored (j + 1) t ht).congr
      intro i hi
      have hin : j * histLen + histLen ≤ (histMax - 1) * histLen := by
        rw [← Nat.succ_mul]
        exact Nat.mul_le_mul_right _ (by omega)
      dsimp only
      rw [shiftSlots_one_mem, if_pos (by omega), Nat.succ_mul]
      exact congrArg s.hist.mem (by omega)
    · rw [List.length_tail]
      omega
    · obtain hold | ⟨⟨slot, hslot, hp⟩, hoff⟩ := shiftSlots_written hx
      · exact h.inSlots x hold
      · exact ⟨⟨slot, by omega, hp⟩, hoff⟩
  · rw [if_neg (hcount ▸ hfull), if_neg hfull]
    exact ⟨h, by omega, rfl⟩

/-! ### A new line -/

theorem Slots.append (h : Slots s slots) (hroom : s.histCount < histMax)
    (hstr : StrAt s.buf.mem 0 t) (hfit : t.length < histLen) (hne : t ≠ []) :
    Slots s.append (slots ++ [t]) := by
  have hcount := h.count_eq
  have hlong := histLen_lt_addressSpace
  have hwritten : ∀ x, x ∈ s.append.hist.written ↔
      x ∈ s.hist.written ∨ x.1 = s.histCount * histLen ∧ x.2 ≤ t.length :=
    fun x ↦ hstr.strcpy_written (by omega)
  refine ⟨?_, fun j u hu ↦ ?_, fun u hu ↦ ?_, fun u hu ↦ ?_, ?_, fun x hx ↦ ?_⟩
  · change s.histCount + 1 = _
    rw [List.length_append, hcount, List.length_singleton]
  · change StrAt (strcpy s.hist (s.histCount * histLen) s.buf.mem 0).mem _ u
    obtain hlt | rfl | hgt := Nat.lt_trichotomy j slots.length
    · rw [List.getElem?_append_left hlt] at hu
      have hbefore : j * histLen + histLen ≤ s.histCount * histLen := by
        rw [← Nat.succ_mul]
        exact Nat.mul_le_mul_right _ (by omega)
      have hufit := h.fits u (List.mem_of_getElem? hu)
      apply (h.stored j u hu).congr
      intro i hi
      rw [hstr.strcpy_mem (by omega), if_neg (by omega)]
    · rw [List.getElem?_append_right (Nat.le_refl _), Nat.sub_self] at hu
      obtain rfl : t = u := Option.some.inj hu
      rw [← hcount]
      exact hstr.strcpy_strAt (by omega)
    · rw [List.getElem?_eq_none (by rw [List.length_append, List.length_singleton]; omega)] at hu
      exact absurd hu (Option.not_mem_none _)
  · obtain hold | hnew := List.mem_append.mp hu
    · exact h.fits u hold
    · rwa [List.mem_singleton.mp hnew]
  · obtain hold | hnew := List.mem_append.mp hu
    · exact h.ne_nil u hold
    · rwa [List.mem_singleton.mp hnew]
  · rw [List.length_append, List.length_singleton]
    omega
  · obtain hold | ⟨hp, hoff⟩ := (hwritten x).mp hx
    · exact h.inSlots x hold
    · exact ⟨⟨s.histCount, hroom, hp⟩, by omega⟩

/-- The comparison of `hist_add`: the line is the newest entry already. -/
theorem Slots.repeated_iff (h : Slots s slots) (hstr : StrAt s.buf.mem 0 t) :
    0 < s.histCount ∧ strcmp s.hist.mem ((s.histCount - 1) * histLen) s.buf.mem 0 = 0 ↔
      slots.getLast? = some t := by
  have hlong := histLen_lt_addressSpace
  rw [h.count_eq, List.getLast?_eq_getElem?]
  obtain hzero | hpos := Nat.eq_zero_or_pos slots.length
  · rw [hzero, List.getElem?_eq_none (by omega)]
    exact iff_of_false (fun hall ↦ absurd hall.1 (Nat.lt_irrefl 0)) (Option.some_ne_none t).symm
  · have hget : slots[slots.length - 1]? = some (slots[slots.length - 1]) :=
      List.getElem?_eq_getElem (by omega)
    have hfit := h.fits _ (List.mem_of_getElem? hget)
    rw [(h.stored _ _ hget).strcmp_eq_zero_iff hstr (by omega), hget, Option.some.injEq]
    exact and_iff_right hpos

/-- `hist_add` keeps the history if the line fits into a slot. -/
theorem Slots.histAdd (h : Slots s slots) (hstr : StrAt s.buf.mem 0 t) (hfit : t.length < histLen) :
    Slots s.histAdd (if t = [] then slots else pushFresh histMax slots t) := by
  unfold Line.histAdd pushFresh
  have hzero : s.buf.mem 0 = 0 ↔ t = [] := by
    cases t with
    | nil => exact iff_of_true (strAt_nil.mp hstr) rfl
    | cons c t =>
      obtain ⟨hc, hhead, -⟩ := strAt_cons.mp hstr
      exact iff_of_false (fun h0 ↦ hc (hhead ▸ h0)) (List.cons_ne_nil c t)
  by_cases hnil : t = []
  · rw [if_pos (hzero.mpr hnil), if_pos hnil]
    exact h
  rw [if_neg (fun h0 ↦ hnil (hzero.mp h0)), if_neg hnil]
  by_cases hlast : slots.getLast? = some t
  · rw [if_pos ((h.repeated_iff hstr).mpr hlast), if_pos hlast]
    exact h
  · rw [if_neg (fun hrep ↦ hlast ((h.repeated_iff hstr).mp hrep)), if_neg hlast]
    obtain ⟨hdropped, hroom, hbuf⟩ := h.dropOldest
    exact hdropped.append hroom (hbuf.symm ▸ hstr) hfit hnil

/-- A line that does not fit into a slot is written beyond it. -/
theorem Slots.not_inSlots_histAdd (h : Slots s slots) (hstr : StrAt s.buf.mem 0 t)
    (hlong : histLen ≤ t.length) (hlen : t.length < addressSpace) : ¬ InSlots s.histAdd := by
  have hne : s.buf.mem 0 ≠ 0 := by
    cases t with
    | nil => exact absurd hlong (by decide)
    | cons c t =>
      obtain ⟨hc, hhead, -⟩ := strAt_cons.mp hstr
      exact hhead ▸ hc
  have hnew : slots.getLast? ≠ some t := by
    intro hlast
    have hfit := h.fits t (List.mem_of_getLast? hlast)
    omega
  obtain ⟨-, -, hbuf⟩ := h.dropOldest
  unfold Line.histAdd
  rw [if_neg hne, if_neg (fun hrep ↦ hnew ((h.repeated_iff hstr).mp hrep))]
  intro hin
  have hmem : (s.dropOldest.histCount * histLen, histLen) ∈ s.dropOldest.append.hist.written := by
    change _ ∈ (strcpy s.dropOldest.hist _ s.dropOldest.buf.mem 0).written
    rw [hbuf, hstr.strcpy_written hlen]
    exact .inr ⟨rfl, hlong⟩
  exact absurd (hin _ hmem).2 (Nat.lt_irrefl histLen)

/-! ### The keys of the shell -/

variable {r : Repl} {c : Byte}

theorem kept_concat (lines : List (List Byte)) (t : List Byte) : kept (lines ++ [t]) =
    if t = [] then kept lines else pushFresh histMax (kept lines) t := by
  unfold kept
  rw [List.filter_append]
  by_cases hnil : t = []
  · rw [if_pos hnil, hnil, List.filter_cons_of_neg (by simp), List.filter_nil, List.append_nil]
  · rw [if_neg hnil, List.filter_cons_of_pos (by simpa using hnil), List.filter_nil,
      freshEnd_concat (by decide)]

/-- The shell waits for a key: the text is in the buffer and the history holds what it ought to. -/
structure Prompt (r : Repl) : Prop where
  slots : Slots r.line (kept r.entered)
  pos_le : r.line.histPos ≤ r.line.histCount
  editing : ∃ e, Editing replCap r.line e
  pos_of_empty : r.line.len = 0 → r.line.histPos = r.line.histCount

/-- The history does not depend on the rest of the state. -/
theorem Slots.congr {s' : Line} (h : Slots s slots) (hhist : s'.hist = s.hist)
    (hcount : s'.histCount = s.histCount) : Slots s' slots :=
  ⟨hcount.trans h.count_eq, hhist.symm ▸ h.stored, h.fits, h.ne_nil, h.length_le,
    fun x hx ↦ h.inSlots x (hhist ▸ hx)⟩

/-- A new line at the prompt. -/
theorem Slots.prompt {entered : List (List Byte)} (h : Slots s (kept entered)) :
    Prompt ⟨s.start, entered⟩ where
  slots := h.congr rfl rfl
  pos_le := Nat.le_refl _
  editing := ⟨.empty, Editing.start (by decide) s⟩
  pos_of_empty _ := rfl

/-- The text a string in the buffer is returned as. -/
theorem StrAt.map_range {m : Mem} (h : StrAt m 0 t) : (List.range t.length).map m = t := by
  have hbegins : Begins m t := fun i hi ↦ by
    rw [h.byte i hi, Nat.zero_add]
  exact hbegins.eq_map_range.symm

/-- Enter enters the text. -/
theorem Editing.key_enter (h : Editing replCap r.line e) :
    r.key keyEnter = ⟨r.line.enter.start, r.entered ++ [e.text]⟩ := by
  have hkey : r.line.key replCap keyEnter = (r.line.enter, some r.line.len) := rfl
  have htext : (List.range r.line.len).map r.line.enter.buf.mem = e.text := by
    rw [h.len_eq, h.enter.1.map_range]
  rw [Repl.key, hkey]
  simp only [htext]

/-- A string of the history in the buffer. -/
theorem Editing.recallSlot (h : Editing cap s e) (hstr : StrAt s.hist.mem (s.histPos * histLen) t)
    (hfit : t.length < histLen) (hcap : histLen ≤ cap) :
    Editing cap { s.recallSlot with cur := s.recallSlot.len } ⟨t, t.length, Nat.le_refl _⟩ := by
  have hlong := histLen_lt_addressSpace
  have hcopy : StrAt s.recallSlot.buf.mem 0 t := hstr.strcpy_strAt (by omega)
  have hlen : s.recallSlot.len = t.length := hcopy.strlen_eq (by omega)
  refine ⟨fun i hi ↦ ?_, hlen, hlen, by change t.length < cap; omega, hstr.nonzero, fun x hx ↦ ?_⟩
  · rw [hcopy.byte i hi, Nat.zero_add]
  · obtain hold | ⟨hp, hoff⟩ := (hstr.strcpy_written (by omega)).mp hx
    · exact h.inside x hold
    · omega

/-- Up recalls the entry before the recalled one. -/
theorem Prompt.up (h : Prompt r) (hpos : 0 < r.line.histPos) :
    ∃ t, (kept r.entered)[r.line.histPos - 1]? = some t ∧ t ≠ [] ∧
      (r.key kbdUp).entered = r.entered ∧ Slots (r.key kbdUp).line (kept r.entered) ∧
      (r.key kbdUp).line.histPos = r.line.histPos - 1 ∧
      (r.key kbdUp).line.histCount = r.line.histCount ∧
      Editing replCap (r.key kbdUp).line ⟨t, t.length, Nat.le_refl _⟩ := by
  obtain ⟨e, he⟩ := h.editing
  have hle := h.pos_le
  have hcount := h.slots.count_eq
  have hget : (kept r.entered)[r.line.histPos - 1]? = some ((kept r.entered)[r.line.histPos - 1]) :=
    List.getElem?_eq_getElem (by omega)
  generalize (kept r.entered)[r.line.histPos - 1] = t at hget
  have hmem : t ∈ kept r.entered := List.mem_of_getElem? hget
  have hup : r.line.up = Line.redraw
      { Line.recallSlot { r.line with histPos := r.line.histPos - 1 } with
        cur := (Line.recallSlot { r.line with histPos := r.line.histPos - 1 }).len } :=
    if_pos ⟨by omega, hpos⟩
  have hkey : r.key kbdUp = { r with line := r.line.up } := rfl
  have hedit : Editing replCap { r.line with histPos := r.line.histPos - 1 } e :=
    ⟨he.begins, he.len_eq, he.cur_eq, he.fits, he.nonzero, he.inside⟩
  rw [hkey]
  refine ⟨t, hget, h.slots.ne_nil t hmem, rfl, ?_, ?_, ?_, ?_⟩
  · exact h.slots.congr (by rw [hup]; rfl) (by rw [hup]; rfl)
  · change r.line.up.histPos = _
    rw [hup]
    rfl
  · change r.line.up.histCount = _
    rw [hup]
    rfl
  · change Editing replCap r.line.up _
    rw [hup]
    exact (hedit.recallSlot (h.slots.stored _ t hget) (h.slots.fits t hmem) (by decide)).redraw

theorem Prompt.key_up (h : Prompt r) : Prompt (r.key kbdUp) := by
  have hle := h.pos_le
  obtain hzero | hpos := Nat.eq_zero_or_pos r.line.histPos
  · have hsame : r.key kbdUp = r := by
      have hup : r.line.up = r.line := if_neg (fun hall ↦ absurd hall.2 (by omega))
      change { r with line := r.line.up } = r
      rw [hup]
    rwa [hsame]
  · obtain ⟨t, -, hne, hentered, hslots, hpos', hcount', hedit⟩ := h.up hpos
    refine ⟨hentered.symm ▸ hslots, by omega, ⟨_, hedit⟩, fun hlen ↦ ?_⟩
    rw [hedit.len_eq] at hlen
    exact absurd (List.eq_nil_of_length_eq_zero hlen) hne

theorem Prompt.key_down (h : Prompt r) : Prompt (r.key kbdDown) := by
  obtain ⟨e, he⟩ := h.editing
  have hcount := h.slots.count_eq
  have hkey : r.key kbdDown = { r with line := r.line.down } := rfl
  rw [hkey]
  by_cases hlt : r.line.histPos < r.line.histCount
  · by_cases hnext : r.line.histPos + 1 < r.line.histCount
    · have hdown : r.line.down = Line.redraw
          { Line.recallSlot { r.line with histPos := r.line.histPos + 1 } with
            cur := (Line.recallSlot { r.line with histPos := r.line.histPos + 1 }).len } := by
        simp only [Line.down, if_pos hlt, if_pos hnext]
      have hget : (kept r.entered)[r.line.histPos + 1]? =
          some ((kept r.entered)[r.line.histPos + 1]) := List.getElem?_eq_getElem (by omega)
      generalize (kept r.entered)[r.line.histPos + 1] = t at hget
      have hmem : t ∈ kept r.entered := List.mem_of_getElem? hget
      have hedit : Editing replCap { r.line with histPos := r.line.histPos + 1 } e :=
        ⟨he.begins, he.len_eq, he.cur_eq, he.fits, he.nonzero, he.inside⟩
      have hrecalled := hedit.recallSlot (h.slots.stored _ t hget) (h.slots.fits t hmem) (by decide)
      rw [hdown]
      refine ⟨h.slots.congr rfl rfl, hlt, ⟨_, hrecalled.redraw⟩, fun hlen ↦ ?_⟩
      exact absurd (List.eq_nil_of_length_eq_zero (hrecalled.len_eq.symm.trans hlen))
        (h.slots.ne_nil t hmem)
    · have hdown : r.line.down = Line.redraw
          { r.line with histPos := r.line.histPos + 1, len := 0, cur := 0 } := by
        simp only [Line.down, if_pos hlt, if_neg hnext]
      rw [hdown]
      refine ⟨h.slots.congr rfl rfl, hlt, ⟨.empty, Editing.redraw ⟨Begins.nil, rfl, rfl, by decide,
        fun _ hc ↦ absurd hc List.not_mem_nil, he.inside⟩⟩, fun _ ↦ ?_⟩
      exact Nat.le_antisymm hlt (Nat.le_of_not_lt hnext)
  · have hdown : r.line.down = r.line := if_neg hlt
    rwa [hdown]

theorem Prompt.key_ordinary (h : Prompt r) (hc : Ordinary c) :
    Prompt (r.key c) ∧ (r.key c).entered = r.entered := by
  obtain ⟨e, he⟩ := h.editing
  obtain ⟨s', hkey, he', hkeeps⟩ := he.key hc
  have hkey' : r.key c = { r with line := s' } := by rw [Repl.key, hkey]
  have hle := h.pos_le
  have hcount := hkeeps.count_eq
  rw [hkey']
  refine ⟨⟨h.slots.congr hkeeps.hist_eq hcount, ?_, ⟨_, he'⟩, fun hlen ↦ ?_⟩, rfl⟩
  · change s'.histPos ≤ s'.histCount
    obtain hreset | ⟨hpos, -⟩ := hkeeps.pos <;> omega
  · change s'.histPos = s'.histCount
    obtain hreset | ⟨hpos, hlen'⟩ := hkeeps.pos
    · omega
    · have hempty := h.pos_of_empty (hlen'.symm.trans hlen)
      omega

/-! ### Lines that fit and lines that do not -/

/-- Every line entered so far fits into a slot. -/
def Short (r : Repl) : Prop := ∀ t ∈ r.entered, t.length < histLen

theorem Short.concat {l : Line} {entered : List (List Byte)} (h : Short ⟨l, entered⟩) {l' : Line}
    (hfit : t.length < histLen) : Short ⟨l', entered ++ [t]⟩ := by
  intro u hu
  obtain hold | hnew := List.mem_append.mp hu
  · exact h u hold
  · rwa [List.mem_singleton.mp hnew]

theorem not_short_concat {l : Line} {entered : List (List Byte)} (hlong : histLen ≤ t.length) :
    ¬ Short ⟨l, entered ++ [t]⟩ :=
  fun h ↦ absurd (h t (List.mem_append_right _ List.mem_cons_self)) (Nat.not_lt.mpr hlong)

theorem strcpyFrom_written_mono {m : Tracked} {d a fuel : ℕ} {b : Mem} {x : ℕ × ℕ}
    (hx : x ∈ m.written) : x ∈ (strcpyFrom d b a fuel i m).written := by
  induction fuel generalizing i m with
  | zero => exact hx
  | succ fuel ih =>
    rw [strcpyFrom]
    split_ifs
    · exact List.mem_cons_of_mem _ hx
    · exact ih (List.mem_cons_of_mem _ hx)

theorem strcpy_written_mono {m : Tracked} {d a : ℕ} {b : Mem} {x : ℕ × ℕ} (hx : x ∈ m.written) :
    x ∈ (strcpy m d b a).written := by
  rw [strcpy]
  exact strcpyFrom_written_mono hx

theorem shiftSlots_written_mono {h : Tracked} {x : ℕ × ℕ} (hx : x ∈ h.written) :
    x ∈ (Line.shiftSlots n i h).written := by
  induction n generalizing i h with
  | zero => exact hx
  | succ n ih => exact ih (copyForward_written.mpr (.inl hx))

/-- What was written to the history stays written. -/
theorem histAdd_written_mono {x : ℕ × ℕ} (hx : x ∈ s.hist.written) : x ∈ s.histAdd.hist.written := by
  unfold Line.histAdd Line.dropOldest
  split_ifs
  · exact hx
  · exact hx
  · exact strcpy_written_mono (shiftSlots_written_mono hx)
  · exact strcpy_written_mono hx

theorem key_written_mono {x : ℕ × ℕ} (hx : x ∈ s.hist.written) :
    x ∈ (s.key cap c).1.hist.written := by
  have hstep : ∀ (p : Prop) [Decidable p] (t : Line), t.hist = s.hist →
      x ∈ (if p then t.redraw else s).hist.written := by
    intro p _ t ht
    split_ifs
    · exact ht.symm ▸ hx
    · exact hx
  unfold Line.key
  split_ifs
  · exact histAdd_written_mono hx
  · exact hstep _ _ rfl
  · exact hstep _ _ rfl
  · exact hstep _ _ rfl
  · exact hstep _ _ rfl
  · exact hstep _ _ rfl
  · exact hstep _ _ rfl
  · exact hstep _ _ rfl
  · refine hstep _ _ ?_
    change (ite _ _ _ : Line).hist = _
    split_ifs <;> rfl
  · exact hx
  · exact hstep _ _ rfl

theorem not_inSlots_key (h : ¬ InSlots r.line) (c : Byte) : ¬ InSlots (r.key c).line := by
  intro hin
  apply h
  intro x hx
  have hmono : x ∈ (r.line.key replCap c).1.hist.written := key_written_mono hx
  unfold Repl.key at hin
  split at hin
  · next heq => exact hin x (by rwa [heq] at hmono)
  · next heq => exact hin x (by rwa [heq] at hmono)

theorem not_short_key (h : ¬ Short r) (c : Byte) : ¬ Short (r.key c) := by
  intro hshort
  apply h
  intro t ht
  unfold Repl.key at hshort
  split at hshort
  · exact hshort t ht
  · exact hshort t (List.mem_append_left _ ht)

/-- Either every line fitted and the shell waits for a key as it ought to, or some line did not fit
and was written beyond its slot. -/
def Settled (r : Repl) : Prop := Prompt r ∧ Short r ∨ ¬ InSlots r.line ∧ ¬ Short r

theorem Settled.key (h : Settled r) (c : Byte) : Settled (r.key c) := by
  obtain ⟨hprompt, hshort⟩ | ⟨hout, hlong⟩ := h
  · obtain ⟨e, he⟩ := hprompt.editing
    by_cases henter : c = keyEnter
    · rw [henter, he.key_enter]
      have hslots : Slots { r.line with buf := r.line.buf.put 0 r.line.len 0 } (kept r.entered) :=
        hprompt.slots.congr rfl rfl
      obtain hfit | hlong := Nat.lt_or_ge e.text.length histLen
      · have hadded := hslots.histAdd he.terminated hfit
        rw [← kept_concat] at hadded
        exact .inl ⟨hadded.prompt, hshort.concat hfit⟩
      · have hcap : replCap < addressSpace := by decide
        exact .inr ⟨hslots.not_inSlots_histAdd he.terminated hlong (he.fits.trans hcap),
          not_short_concat hlong⟩
    by_cases hcancel : Cancels c
    · have hkey : r.key c = ⟨r.line.cancel.start, r.entered ++ [[]]⟩ := by
        obtain rfl | rfl := hcancel <;> rfl
      have hkept : kept (r.entered ++ [[]]) = kept r.entered := by rw [kept_concat, if_pos rfl]
      have hslots : Slots r.line.cancel (kept (r.entered ++ [[]])) := by
        rw [hkept]
        exact hprompt.slots.congr rfl rfl
      rw [hkey]
      exact .inl ⟨hslots.prompt, hshort.concat (by decide)⟩
    by_cases hup : c = kbdUp
    · rw [hup]
      exact .inl ⟨hprompt.key_up, hshort⟩
    by_cases hdown : c = kbdDown
    · rw [hdown]
      exact .inl ⟨hprompt.key_down, hshort⟩
    · obtain ⟨hprompt', hentered⟩ := hprompt.key_ordinary ⟨henter, hcancel, hup, hdown⟩
      refine .inl ⟨hprompt', ?_⟩
      unfold Short
      rwa [hentered]
  · exact .inr ⟨not_inSlots_key hout c, not_short_key hlong c⟩

theorem settled_boot (buf : Mem) : Settled (Repl.boot buf) := by
  have hslots : Slots ⟨⟨buf, []⟩, ⟨fun _ ↦ 0, []⟩, 0, 0, 0, 0, 0, []⟩ (kept []) := by
    refine ⟨rfl, fun j t ht ↦ absurd ht (Option.not_mem_none t), fun t ht ↦ ?_, fun t ht ↦ ?_,
      Nat.zero_le _, fun x hx ↦ absurd hx List.not_mem_nil⟩
    · exact absurd ht List.not_mem_nil
    · exact absurd ht List.not_mem_nil
  exact .inl ⟨hslots.prompt, fun t ht ↦ absurd ht List.not_mem_nil⟩

theorem Settled.keys (h : Settled r) (cs : List Byte) : Settled (r.keys cs) := by
  induction cs generalizing r with
  | nil => exact h
  | cons c cs ih => exact ih (h.key c)

/-! ### Recalls -/

/-- Up, pressed some times, and Enter enter the entry that many places before the recalled one. -/
theorem Prompt.recalls (h : Prompt r) (hk : k < r.line.histPos) :
    ∃ t, (kept r.entered)[r.line.histPos - (k + 1)]? = some t ∧
      (r.keys (List.replicate (k + 1) kbdUp ++ [keyEnter])).entered = r.entered ++ [t] := by
  induction k generalizing r with
  | zero =>
    obtain ⟨t, hget, -, hentered, -, -, -, hedit⟩ := h.up hk
    refine ⟨t, hget, ?_⟩
    change ((r.key kbdUp).key keyEnter).entered = _
    rw [hedit.key_enter, hentered]
  | succ k ih =>
    obtain ⟨t, -, -, hentered, -, hpos, -, -⟩ := h.up (Nat.zero_lt_of_lt hk)
    obtain ⟨t, hget, hlast⟩ := ih h.key_up (by omega)
    refine ⟨t, ?_, ?_⟩
    · rw [hentered, hpos] at hget
      rwa [show r.line.histPos - (k + 1 + 1) = r.line.histPos - 1 - (k + 1) by omega]
    · rw [hentered] at hlast
      exact hlast

/-- The history is what it ought to be: nothing is written outside a slot, it holds the last 16
non-empty lines without immediate repetitions, and from an empty edit Up finds the `k`-th newest. -/
structure HistoryFaithful (r : Repl) : Prop where
  inSlots : InSlots r.line
  count_eq : r.line.histCount = (kept r.entered).length
  stored : ∀ j, ∀ t ∈ (kept r.entered)[j]?, StrAt r.line.hist.mem (j * histLen) t
  recalls : r.line.len = 0 → ∀ k, ∀ t ∈ (kept r.entered).reverse[k]?,
    (r.keys (List.replicate (k + 1) kbdUp ++ [keyEnter])).entered = r.entered ++ [t]

theorem Prompt.historyFaithful (h : Prompt r) : HistoryFaithful r where
  inSlots := h.slots.inSlots
  count_eq := h.slots.count_eq
  stored := h.slots.stored
  recalls hempty k t ht := by
    have hcount := h.slots.count_eq
    have hpos := h.pos_of_empty hempty
    have hk : k < (kept r.entered).length := by
      by_contra hge
      rw [List.getElem?_eq_none (by rw [List.length_reverse]; omega)] at ht
      exact absurd ht (Option.not_mem_none t)
    obtain ⟨u, hget, hentered⟩ := h.recalls (k := k) (by omega)
    rw [List.getElem?_reverse hk, Option.mem_def] at ht
    rw [hpos, hcount, show (kept r.entered).length - (k + 1) = (kept r.entered).length - 1 - k by
      omega, ht] at hget
    rw [hentered, Option.some.inj hget]

theorem Settled.historyFaithful_iff (h : Settled r) : HistoryFaithful r ↔ Short r := by
  obtain ⟨hprompt, hshort⟩ | ⟨hout, hlong⟩ := h
  · exact iff_of_true hprompt.historyFaithful hshort
  · exact iff_of_false (fun hfaithful ↦ hout hfaithful.inSlots) hlong

/-- After any keys the history is what it ought to be exactly if every line that was entered is
shorter than a slot. -/
theorem historyFaithful_keys_iff (buf : Mem) (keys : List Byte) :
    HistoryFaithful ((Repl.boot buf).keys keys) ↔
      ∀ t ∈ ((Repl.boot buf).keys keys).entered, t.length < histLen :=
  ((settled_boot buf).keys keys).historyFaithful_iff

/-- A line of 256 letters. -/
def longLine : List Byte := List.replicate 256 0x61 ++ [keyEnter]

theorem not_historyFaithful_longLine :
    ¬ HistoryFaithful ((Repl.boot fun _ ↦ 0).keys longLine) := by
  rw [((settled_boot _).keys longLine).historyFaithful_iff]
  intro hshort
  have hlen : (((Repl.boot fun _ ↦ 0).keys longLine).entered.map List.length) = [256] := by
    decide +kernel
  have hmem : 256 ∈ (((Repl.boot fun _ ↦ 0).keys longLine).entered.map List.length) := by
    rw [hlen]
    exact List.mem_cons_self
  obtain ⟨t, ht, heq⟩ := List.mem_map.mp hmem
  exact absurd (hshort t ht) (by rw [heq]; decide)

end NoOsKernel.Kern
