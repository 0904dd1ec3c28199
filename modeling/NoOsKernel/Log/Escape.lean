import NoOsKernel.Log.Records
import NoOsKernel.Lib.Accesses

/-!
# Escaped records can be read back

`il_append_esc` turns a command, or what it printed, into one line. `unescape` reads such a line
back: it returns the payload without the bytes the log does not keep, so that two payloads with
different kept bytes never share a record. The buffer the line is built in has room for it whatever
the payload is; `escFill` is the same function with the writes to that buffer in it.
-/

set_option autoImplicit false
set_option relaxedAutoImplicit false

namespace NoOsKernel.Log

open Lib Lib.Window Fs

/-! ### Reading a record back -/

/-- The bytes an escaped record keeps. -/
def IsKept (c : Byte) : Prop := (0x20 ≤ c ∧ c ≤ 0x7e) ∨ c = newline ∨ c = 0x0d ∨ c = 0x09

instance (c : Byte) : Decidable (IsKept c) := by
  unfold IsKept
  infer_instance

/-- What a byte behind a backslash stands for. -/
def unescapeByte (c : Byte) : Byte :=
  if c = 0x6e then newline else if c = 0x72 then 0x0d else if c = 0x74 then 0x09 else c

/-- The payload of an escaped record. -/
def unescape : List Byte → List Byte
  | [] => []
  | [c] => [c]
  | c :: d :: text =>
    if c = 0x5c then unescapeByte d :: unescape text else c :: unescape (d :: text)

theorem unescape_backslash (d : Byte) (text : List Byte) :
    unescape (0x5c :: d :: text) = unescapeByte d :: unescape text := by
  rw [unescape, if_pos rfl]

theorem unescape_cons {c : Byte} (hc : c ≠ 0x5c) (text : List Byte) :
    unescape (c :: text) = c :: unescape text := by
  cases text with
  | nil => rfl
  | cons d text => rw [unescape, if_neg hc]

/-- The escape of a byte is read back as the byte, or as nothing. -/
theorem unescape_escByte (c : Byte) (text : List Byte) :
    unescape (escByte c ++ text) = [c].filter (fun c ↦ IsKept c) ++ unescape text := by
  unfold escByte
  split_ifs with hback hline hreturn htab hprint
  · rw [hback, List.cons_append, List.cons_append, List.nil_append, unescape_backslash]
    rfl
  · rw [hline, List.cons_append, List.cons_append, List.nil_append, unescape_backslash]
    rfl
  · rw [hreturn, List.cons_append, List.cons_append, List.nil_append, unescape_backslash]
    rfl
  · rw [htab, List.cons_append, List.cons_append, List.nil_append, unescape_backslash]
    rfl
  · have hkept : IsKept c := Or.inl ⟨hprint.1, by bv_omega⟩
    rw [List.filter_singleton, decide_eq_true hkept, cond_true, List.singleton_append,
      List.singleton_append, unescape_cons hback]
  · have hdrop : ¬ IsKept c := by
      rintro (⟨hlow, hhigh⟩ | hc | hc | hc)
      · exact hprint ⟨hlow, by bv_omega⟩
      · exact hline hc
      · exact hreturn hc
      · exact htab hc
    rw [List.filter_singleton, decide_eq_false hdrop, cond_false, List.nil_append, List.nil_append]

/-- Escaping a payload is undone up to the bytes that are not kept. -/
theorem unescape_flatMap (payload : List Byte) :
    unescape (payload.flatMap escByte) = payload.filter fun c ↦ IsKept c := by
  induction payload with
  | nil => rfl
  | cons c payload ih =>
    rw [List.flatMap_cons, unescape_escByte, ih, ← List.filter_append, List.singleton_append]

/-! ### One line -/

/-- The escape of a byte has no line end and no tab. -/
theorem plain_of_mem_escByte {c d : Byte} (hd : d ∈ escByte c) :
    d ≠ newline ∧ d ≠ 0x0d ∧ d ≠ 0x09 := by
  unfold escByte at hd
  split_ifs at hd with hback hline hreturn htab hprint
  · simp only [List.mem_cons, List.not_mem_nil, or_false, or_self] at hd
    rw [hd]
    decide
  · simp only [List.mem_cons, List.not_mem_nil, or_false] at hd
    obtain rfl | rfl := hd <;> decide
  · simp only [List.mem_cons, List.not_mem_nil, or_false] at hd
    obtain rfl | rfl := hd <;> decide
  · simp only [List.mem_cons, List.not_mem_nil, or_false] at hd
    obtain rfl | rfl := hd <;> decide
  · rw [List.mem_singleton.mp hd]
    exact ⟨hline, hreturn, htab⟩
  · exact absurd hd List.not_mem_nil

/-- While there is room, the payload loop escapes every byte. -/
theorem escPayload_eq {payload : List Byte} (hnul : 0 ∉ payload) {tmp : List Byte}
    (hroom : tmp.length + 2 * payload.length ≤ escSize - 2) :
    escPayload tmp payload = tmp ++ payload.flatMap escByte := by
  induction payload generalizing tmp with
  | nil => rw [escPayload, List.flatMap_nil, List.append_nil]
  | cons c payload ih =>
    rw [List.length_cons] at hroom
    have hc : c ≠ 0 := fun h ↦ hnul (h ▸ List.mem_cons_self)
    have hbyte := length_escByte_le c
    rw [escPayload, if_pos ⟨hc, by omega⟩, ih (fun h ↦ hnul (List.mem_cons_of_mem _ h))
      (by rw [List.length_append]; omega), List.flatMap_cons, List.append_assoc]

/-! ### The buffer -/

/-- `tmp[n++] = c` for every byte of an escape. -/
def put (n : ℕ) : List Byte → Prog Unit Byte ℕ
  | [] => pure n
  | c :: s => Prog.write () n c >>= fun _ ↦ put (n + 1) s

/-- The loop over the tag. -/
def tagLoop (n : ℕ) : List Byte → Prog Unit Byte ℕ
  | [] => pure n
  | c :: tag =>
    if n < escSize - 2 then Prog.write () n c >>= fun _ ↦ tagLoop (n + 1) tag else pure n

/-- The loop over the payload. -/
def payloadLoop (n : ℕ) : List Byte → Prog Unit Byte ℕ
  | [] => pure n
  | c :: payload =>
    if c ≠ 0 ∧ n < escSize - 2 then put n (escByte c) >>= fun n ↦ payloadLoop n payload
    else pure n

/-- How `il_append_esc` fills `tmp`; the result is the number of bytes it hands to `il_append`. -/
def escFill (tag payload : List Byte) : Prog Unit Byte ℕ :=
  tagLoop 0 tag >>= fun n ↦ payloadLoop n payload

/-- The first bytes of the buffer. -/
def Filled (n : ℕ) (m : Words Unit Byte) (s : List Byte) : Prop := (List.range n).map (m ()) = s

theorem Filled.length_eq {n : ℕ} {m : Words Unit Byte} {s : List Byte} (hs : Filled n m s) :
    s.length = n := by
  rw [← hs, List.length_map, List.length_range]

/-- A byte written behind what is filled. -/
theorem Filled.write {n : ℕ} {m : Words Unit Byte} {s : List Byte} (hs : Filled n m s) (c : Byte) :
    Filled (n + 1) (Prog.write () n c m).words (s ++ [c]) := by
  have hold : ∀ k ∈ List.range n, (Prog.write () n c m).words () k = m () k :=
    fun k hk ↦ if_neg fun h ↦ (List.mem_range.mp hk).ne h.2
  have hnew : (Prog.write () n c m).words () n = c := if_pos ⟨rfl, rfl⟩
  rw [Filled, List.range_succ, List.map_append, List.map_congr_left hold, hs, List.map_singleton,
    hnew]

theorem Filled.put {n : ℕ} {m : Words Unit Byte} {s : List Byte} (hs : Filled n m s)
    (t : List Byte) : Filled (Log.put n t m).result (Log.put n t m).words (s ++ t) := by
  induction t generalizing n m s with
  | nil => rwa [List.append_nil]
  | cons c t ih =>
    have hrest := ih (hs.write c)
    rwa [List.append_assoc, List.singleton_append] at hrest

theorem Filled.tagLoop {n : ℕ} {m : Words Unit Byte} {s : List Byte} (hs : Filled n m s)
    (tag : List Byte) :
    Filled (Log.tagLoop n tag m).result (Log.tagLoop n tag m).words
      (s ++ tag.take (escSize - 2 - n)) := by
  induction tag generalizing n m s with
  | nil =>
    rw [List.take_nil, List.append_nil]
    exact hs
  | cons c tag ih =>
    rw [Log.tagLoop]
    split_ifs with hroom
    · have hrest := ih (hs.write c)
      obtain ⟨k, hk⟩ : ∃ k, escSize - 2 - n = k + 1 := ⟨escSize - 2 - n - 1, by omega⟩
      rw [show escSize - 2 - (n + 1) = k by omega, List.append_assoc,
        List.singleton_append] at hrest
      rw [hk, List.take_succ_cons]
      exact hrest
    · rw [show escSize - 2 - n = 0 by omega, List.take_zero, List.append_nil]
      exact hs

theorem Filled.payloadLoop {n : ℕ} {m : Words Unit Byte} {s : List Byte} (hs : Filled n m s)
    (payload : List Byte) :
    Filled (Log.payloadLoop n payload m).result (Log.payloadLoop n payload m).words
      (escPayload s payload) := by
  induction payload generalizing n m s with
  | nil => exact hs
  | cons c payload ih =>
    rw [Log.payloadLoop, escPayload, hs.length_eq]
    split_ifs with hgo
    · exact ih (hs.put (escByte c))
    · exact hs

/-- The buffer holds the record when it is handed on. -/
theorem filled_escFill (tag payload : List Byte) (m : Words Unit Byte) :
    Filled (escFill tag payload m).result (escFill tag payload m).words (escRecord tag payload) :=
  Filled.payloadLoop (Filled.tagLoop (show Filled 0 m [] from rfl) tag) payload

/-! ### The bound -/

theorem within_put {n : ℕ} {s : List Byte} (hroom : n + s.length ≤ escSize) :
    Prog.Within (fun _ ↦ escSize) (put n s) := by
  induction s generalizing n with
  | nil => exact Prog.within_pure n
  | cons c s ih =>
    rw [List.length_cons] at hroom
    exact Prog.within_bind (Prog.within_write c (by omega)) fun _ ↦ ih (by omega)

theorem within_tagLoop (n : ℕ) (tag : List Byte) :
    Prog.Within (fun _ ↦ escSize) (tagLoop n tag) := by
  induction tag generalizing n with
  | nil => exact Prog.within_pure n
  | cons c tag ih =>
    exact Prog.within_ite
      (fun hroom ↦ Prog.within_bind (Prog.within_write c (by omega)) fun _ ↦ ih (n + 1))
      fun _ ↦ Prog.within_pure n

/-- The guard leaves room for an escape of two bytes. -/
theorem within_payloadLoop (n : ℕ) (payload : List Byte) :
    Prog.Within (fun _ ↦ escSize) (payloadLoop n payload) := by
  induction payload generalizing n with
  | nil => exact Prog.within_pure n
  | cons c payload ih =>
    refine Prog.within_ite (fun hgo ↦ Prog.within_bind (within_put ?_) ih)
      fun _ ↦ Prog.within_pure n
    have hbyte := length_escByte_le c
    have hroom := hgo.2
    omega

/-- No payload and no tag is too long for the buffer. -/
theorem within_escFill (tag payload : List Byte) :
    Prog.Within (fun _ ↦ escSize) (escFill tag payload) :=
  Prog.within_bind (within_tagLoop 0 tag) fun n ↦ within_payloadLoop n payload

/-! ### The records of a command -/

/-- The tags of `il_end_capture`. -/
inductive Tag
  | cmd | out | err
  deriving DecidableEq, Repr

def Tag.text : Tag → List Byte
  | .cmd => ascii "[CMD] "
  | .out => ascii "[OUT] "
  | .err => ascii "[ERR] "

theorem plain_of_mem_tag (tag : Tag) : ∀ c ∈ tag.text, c ≠ newline ∧ c ≠ 0x0d ∧ c ≠ 0x09 := by
  cases tag <;> decide

/-- What a call of `il_append_esc` does, if `body` is what it puts behind the tag. -/
structure Escaped (tag : Tag) (payload body : List Byte) : Prop where
  record : escRecord tag.text payload = tag.text ++ body
  oneLine : ∀ c ∈ tag.text ++ body, c ≠ newline ∧ c ≠ 0x0d ∧ c ≠ 0x09
  readBack : unescape body = payload.filter fun c ↦ IsKept c
  within : Prog.Within (fun _ ↦ escSize) (escFill tag.text payload)
  filled : ∀ m, Filled (escFill tag.text payload m).result (escFill tag.text payload m).words
    (tag.text ++ body)
  appended : ∀ log w fuel, Holds log w → w.length < fuel →
    ∃ log', ilAppendEsc fuel log tag.text payload = some log' ∧
      Holds log' (trim recordSize (ilRingSize - 1 - recordSize (tag.text ++ body)) w ++
        [tag.text ++ body])

/-- A payload that fits the capture buffer is escaped as a whole. -/
theorem escRecord_tag (tag : Tag) {payload : List Byte} (hnul : 0 ∉ payload)
    (hlen : payload.length ≤ ilCapMax - 1) :
    escRecord tag.text payload = tag.text ++ payload.flatMap escByte := by
  have htag : tag.text.length = 6 := by
    cases tag <;> rfl
  rw [ilCapMax] at hlen
  rw [escRecord, List.take_of_length_le (by rw [htag]; decide)]
  exact escPayload_eq hnul (by rw [htag, escSize, ilCapMax]; omega)

/-- Log escaping is reversible and single-line, and payloads with different kept bytes have
different records. -/
theorem escape_reversible (tag : Tag) {payload : List Byte} (hnul : 0 ∉ payload)
    (hlen : payload.length ≤ ilCapMax - 1) :
    Escaped tag payload (payload.flatMap escByte) ∧
      ∀ other : List Byte, 0 ∉ other → other.length ≤ ilCapMax - 1 →
        (payload.filter fun c ↦ IsKept c) ≠ (other.filter fun c ↦ IsKept c) →
          escRecord tag.text payload ≠ escRecord tag.text other := by
  have hrecord := escRecord_tag tag hnul hlen
  have hisRecord : IsRecord (escRecord tag.text payload) := by
    apply isRecord_escRecord
    · cases tag <;> decide
    · cases tag <;> decide
    · cases tag <;> decide
  refine ⟨⟨hrecord, ?_, unescape_flatMap payload, within_escFill _ _, ?_, ?_⟩, ?_⟩
  · intro c hc
    obtain htag | hbody := List.mem_append.mp hc
    · exact plain_of_mem_tag tag c htag
    · obtain ⟨d, -, hd⟩ := List.mem_flatMap.mp hbody
      exact plain_of_mem_escByte hd
  · intro m
    rw [← hrecord]
    exact filled_escFill _ _ m
  · intro log w fuel hlog hfuel
    rw [← hrecord]
    exact ilAppend_holds hisRecord hlog hfuel
  · intro other hother hshort hdiffer heq
    rw [hrecord, escRecord_tag tag hother hshort, List.append_cancel_left_eq] at heq
    apply hdiffer
    rw [← unescape_flatMap, heq, unescape_flatMap]

/-- A command of two lines. -/
theorem escape_reversible_lines :
    Escaped .cmd (ascii "a\nb") ((ascii "a\nb").flatMap escByte) ∧
      ∀ other : List Byte, 0 ∉ other → other.length ≤ ilCapMax - 1 →
        ((ascii "a\nb").filter fun c ↦ IsKept c) ≠ (other.filter fun c ↦ IsKept c) →
          escRecord Tag.cmd.text (ascii "a\nb") ≠ escRecord Tag.cmd.text other :=
  escape_reversible .cmd (by decide) (by decide)

end NoOsKernel.Log
