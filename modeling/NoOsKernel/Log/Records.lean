import NoOsKernel.Log.Interact

/-!
# The log is a window of whole records

`Holds log w` says that the log stores exactly the records `w`. One round of the eviction drops the
first of them, so the eviction loop trims `w` to the room the new record leaves, and the log of a
session is the longest suffix of the records appended that fits in the array.
-/

set_option autoImplicit false
set_option relaxedAutoImplicit false

namespace NoOsKernel.Log

open Lib Lib.Window Fs

/-- A record as the callers build it. -/
structure IsRecord (r : List Byte) : Prop where
  nonempty : r ≠ []
  oneLine : newline ∉ r
  short : r.length ≤ ilRingSize - 2

/-- The bytes a record takes in the log. -/
def recordSize (r : List Byte) : ℕ := r.length + 1

/-- Records as they stand in the array. -/
def lines (w : List (List Byte)) : List Byte := w.flatMap fun r ↦ r ++ [newline]

/-- The log stores exactly the records `w`. -/
structure Holds (log : IlState) (w : List (List Byte)) : Prop where
  bytes_eq : log.bytes = lines w
  records_eq : log.records = w.length
  oneLine : ∀ r ∈ w, newline ∉ r

/-! ### The bytes of the array -/

@[simp] theorem length_bytes (log : IlState) : log.bytes.length = log.len := by
  rw [IlState.bytes, List.length_map, List.length_range]

theorem getElem?_bytes (log : IlState) (k : ℕ) :
    log.bytes[k]? = if k < log.len then some (log.ring k) else none := by
  rw [IlState.bytes, List.getElem?_map]
  split_ifs with hk
  · rw [List.getElem?_range hk, Option.map_some]
  · rw [List.getElem?_eq_none (by rw [List.length_range]; omega), Option.map_none]

theorem length_lines (w : List (List Byte)) : (lines w).length = total recordSize w := by
  induction w with
  | nil => rfl
  | cons r w ih =>
    rw [lines, List.flatMap_cons, List.length_append, ← lines, ih, total_cons, recordSize,
      List.length_append, List.length_singleton]

theorem Holds.len_eq {log : IlState} {w : List (List Byte)} (hlog : Holds log w) :
    log.len = total recordSize w := by
  rw [← length_bytes, hlog.bytes_eq, length_lines]

/-- Moving the array down drops its first bytes. -/
theorem bytes_memmove (log : IlState) (d records : ℕ) :
    (IlState.mk (memmove log.ring 0 d (log.len - d)) (log.len - d) records).bytes =
      log.bytes.drop d := by
  apply List.ext_getElem?
  intro k
  rw [List.getElem?_drop, getElem?_bytes, getElem?_bytes]
  change (if k < log.len - d then some (memmove log.ring 0 d (log.len - d) k) else none) = _
  by_cases hk : k < log.len - d
  · rw [if_pos hk, if_pos (by omega), memmove, if_pos ⟨Nat.zero_le k, by omega⟩, Nat.sub_zero]
  · rw [if_neg hk, if_neg (by omega)]

/-- Storing puts the record behind what is there. -/
theorem bytes_store (log : IlState) (s : List Byte) :
    (store log s).bytes = log.bytes ++ (s ++ [newline]) := by
  have hlen : (s ++ [newline]).length = s.length + 1 := by
    rw [List.length_append, List.length_singleton]
  apply List.ext_getElem?
  intro k
  rw [getElem?_bytes]
  change (if k < log.len + s.length + 1 then
    some (memcpy log.ring log.len (s ++ [newline]) k) else none) = _
  by_cases hold : k < log.len
  · rw [List.getElem?_append_left (by rwa [length_bytes]), getElem?_bytes, if_pos hold,
      if_pos (by omega), memcpy, if_neg (by omega)]
  · rw [List.getElem?_append_right (by rw [length_bytes]; omega), length_bytes]
    by_cases hnew : k < log.len + s.length + 1
    · rw [if_pos hnew, memcpy, if_pos ⟨by omega, by omega⟩, List.getD_eq_getElem?_getD,
        List.getElem?_eq_getElem (by omega), Option.getD_some]
    · rw [if_neg hnew, List.getElem?_eq_none (by omega)]

/-! ### Eviction -/

/-- The scan stops at the first newline. -/
theorem nextNewline_eq {log : IlState} {j : ℕ} (hj : j < log.len) (hend : log.ring j = newline)
    (d : ℕ) (hd : d ≤ j) (hline : ∀ k < j, d ≤ k → log.ring k ≠ newline) :
    nextNewline log d = j := by
  fun_induction nextNewline log d with
  | case1 d hgo ih =>
    have hne : d ≠ j := by
      rintro rfl
      exact hgo.2 hend
    exact ih (by omega) fun k hk hle ↦ hline k hk (by omega)
  | case2 d hstop =>
    by_contra hne
    exact hstop ⟨by omega, hline d (by omega) (le_refl d)⟩

/-- One round drops the first record with its newline. -/
theorem dropCount_eq {log : IlState} {r : List Byte} {w : List (List Byte)}
    (hlog : Holds log (r :: w)) : dropCount log = r.length + 1 := by
  have hbytes : log.bytes = r ++ (newline :: lines w) := by
    rw [hlog.bytes_eq, lines, List.flatMap_cons, List.append_assoc, List.singleton_append, ← lines]
  have hlen : r.length < log.len := by
    rw [← length_bytes, hbytes, List.length_append, List.length_cons]
    omega
  have hring (k : ℕ) (hk : k < log.len) : some (log.ring k) = (r ++ (newline :: lines w))[k]? := by
    rw [← hbytes, getElem?_bytes, if_pos hk]
  have hend : log.ring r.length = newline := by
    have hget := hring r.length hlen
    rw [List.getElem?_append_right (le_refl _), Nat.sub_self, List.getElem?_cons_zero] at hget
    exact Option.some.inj hget
  have hline : ∀ k < r.length, 0 ≤ k → log.ring k ≠ newline := by
    intro k hk _ heq
    have hget := hring k (by omega)
    rw [List.getElem?_append_left hk, heq] at hget
    exact hlog.oneLine r List.mem_cons_self (List.mem_of_getElem? hget.symm)
  have hnext := nextNewline_eq hlen hend 0 (Nat.zero_le _) hline
  simp only [dropCount, hnext, if_pos hlen]
  exact if_neg (Nat.succ_ne_zero _)

/-- One round of the eviction forgets the oldest record. -/
theorem holds_dropOldest {log : IlState} {r : List Byte} {w : List (List Byte)}
    (hlog : Holds log (r :: w)) : Holds (dropOldest log) w := by
  constructor
  · rw [dropOldest, bytes_memmove, dropCount_eq hlog, hlog.bytes_eq, lines, List.flatMap_cons,
      ← lines]
    exact List.drop_left' (by rw [List.length_append, List.length_singleton])
  · change (if 0 < log.records then log.records - 1 else log.records) = w.length
    rw [hlog.records_eq, List.length_cons, if_pos (Nat.succ_pos _), Nat.add_sub_cancel]
  · exact fun r' hr' ↦ hlog.oneLine r' (List.mem_cons_of_mem _ hr')

/-- The eviction loop returns, and it has trimmed the log to the room the record leaves. -/
theorem evict_spec {n : ℕ} (hn : n + 1 ≤ ilRingSize - 1) {log : IlState} {w : List (List Byte)}
    (hlog : Holds log w) {fuel : ℕ} (hfuel : w.length < fuel) :
    ∃ log', evict fuel n log = some log' ∧
      Holds log' (trim recordSize (ilRingSize - 1 - (n + 1)) w) := by
  induction w generalizing log fuel with
  | nil =>
    obtain ⟨fuel, rfl⟩ := Nat.exists_eq_add_of_lt hfuel
    have hlen : log.len = 0 := hlog.len_eq
    refine ⟨log, ?_, hlog⟩
    rw [evict, if_neg (by omega)]
  | cons r w ih =>
    rw [List.length_cons] at hfuel
    obtain ⟨fuel, rfl⟩ : ∃ m, fuel = m + 1 := ⟨fuel - 1, by omega⟩
    rw [evict]
    by_cases hfits : log.len + n + 1 ≤ ilRingSize - 1
    · rw [if_neg (by omega)]
      refine ⟨log, rfl, ?_⟩
      rwa [trim_of_fits (by rw [← hlog.len_eq]; omega)]
    · rw [if_pos (by omega), trim_cons_of_lt (by rw [← hlog.len_eq]; omega)]
      exact ih (holds_dropOldest hlog) (by omega)

/-! ### Appending -/

/-- Every record takes a byte at least. -/
theorem length_le_total (w : List (List Byte)) : w.length ≤ total recordSize w := by
  induction w with
  | nil => exact le_refl 0
  | cons r w ih =>
    rw [List.length_cons, total_cons, recordSize]
    omega

/-- The log after `recs` have been appended, if it started empty. -/
abbrev HoldsWindow (log : IlState) (recs : List (List Byte)) : Prop :=
  Holds log (trim recordSize (ilRingSize - 1) recs)

/-- A record goes behind what the log holds, trimmed to the room it leaves. -/
theorem ilAppend_holds {log : IlState} {w : List (List Byte)} {r : List Byte} (hr : IsRecord r)
    (hlog : Holds log w) {fuel : ℕ} (hfuel : w.length < fuel) :
    ∃ log', ilAppend fuel log r = some log' ∧
      Holds log' (trim recordSize (ilRingSize - 1 - recordSize r) w ++ [r]) := by
  have hshort : r.length + 1 ≤ ilRingSize - 1 := by
    have := hr.short
    rw [ilRingSize] at this ⊢
    omega
  obtain ⟨log', hevict, hlog'⟩ := evict_spec hshort hlog hfuel
  refine ⟨store log' r, ?_, ?_⟩
  · rw [ilAppend, if_neg (by simp [hr.nonempty]), if_neg (by omega)]
    simp only [hevict, Option.map_some, List.take_length]
  · constructor
    · rw [bytes_store, hlog'.bytes_eq, lines, lines, List.flatMap_append, List.flatMap_singleton]
      rfl
    · rw [List.length_append, List.length_singleton]
      exact congrArg (· + 1) hlog'.records_eq
    · intro r' hr'
      obtain hold | hnew := List.mem_append.mp hr'
      · exact hlog'.oneLine r' hold
      · rw [List.mem_singleton.mp hnew]
        exact hr.oneLine

/-- Appending a record keeps the window of the records appended so far. -/
theorem ilAppend_spec {log : IlState} {recs : List (List Byte)} {r : List Byte} (hr : IsRecord r)
    (hlog : HoldsWindow log recs) {fuel : ℕ} (hfuel : ilRingSize ≤ fuel) :
    ∃ log', ilAppend fuel log r = some log' ∧ HoldsWindow log' (recs ++ [r]) := by
  have hshort : recordSize r ≤ ilRingSize - 1 := by
    have := hr.short
    rw [ilRingSize] at this ⊢
    rw [recordSize]
    omega
  have hroom : (trim recordSize (ilRingSize - 1) recs).length < fuel := by
    have hle := length_le_total (trim recordSize (ilRingSize - 1) recs)
    have hfits := (isWindow_trim recs : IsWindow recordSize (ilRingSize - 1) recs _).fits
    rw [ilRingSize] at hfuel hfits hle ⊢
    omega
  obtain ⟨log', happend, hlog'⟩ := ilAppend_holds hr hlog hroom
  refine ⟨log', happend, ?_⟩
  rwa [HoldsWindow, trim_snoc recs r hshort]

/-- Appending record after record. -/
theorem foldlM_ilAppend_spec {fuel : ℕ} (hfuel : ilRingSize ≤ fuel) (recs : List (List Byte))
    (hrecs : ∀ r ∈ recs, IsRecord r) {log : IlState} {past : List (List Byte)}
    (hlog : HoldsWindow log past) :
    ∃ log', recs.foldlM (ilAppend fuel) log = some log' ∧ HoldsWindow log' (past ++ recs) := by
  induction recs generalizing log past with
  | nil => exact ⟨log, rfl, by rwa [List.append_nil]⟩
  | cons r recs ih =>
    obtain ⟨log₁, hfirst, hlog₁⟩ := ilAppend_spec (hrecs r List.mem_cons_self) hlog hfuel
    obtain ⟨log₂, hrest, hlog₂⟩ := ih (fun r' hr' ↦ hrecs r' (List.mem_cons_of_mem _ hr')) hlog₁
    refine ⟨log₂, ?_, ?_⟩
    · rw [List.foldlM_cons, hfirst]
      exact hrest
    · rwa [List.append_assoc, List.singleton_append] at hlog₂

/-- An empty log, whatever the array holds. -/
theorem holdsWindow_empty (ring : Mem) : HoldsWindow ⟨ring, 0, 0⟩ [] := by
  constructor
  · rfl
  · rfl
  · exact fun r hr ↦ absurd hr List.not_mem_nil

/-! ### The tail -/

/-- The tail is the last bytes of the log. -/
theorem ilCopyTail_eq (log : IlState) (cap : ℕ) :
    ilCopyTail log cap = log.bytes.drop (log.len - min cap log.len) := by
  unfold ilCopyTail
  split_ifs with hnone hcap
  · obtain rfl | hlen := hnone
    · rw [Nat.zero_min, Nat.sub_zero]
      exact (List.drop_eq_nil_of_le (by rw [length_bytes])).symm
    · exact (List.drop_eq_nil_of_le (by rw [length_bytes]; omega)).symm
  · rw [Nat.min_eq_right (by omega), Nat.sub_self, List.drop_zero]
    simp only [Nat.sub_self, Nat.zero_add]
    rfl
  · rw [Nat.min_eq_left (by omega)]
    apply List.ext_getElem?
    intro k
    rw [List.getElem?_map, List.getElem?_drop, getElem?_bytes]
    by_cases hk : k < cap
    · rw [List.getElem?_range hk, Option.map_some, if_pos (by omega)]
    · rw [List.getElem?_eq_none (by rw [List.length_range]; omega), Option.map_none,
        if_neg (by omega)]

/-! ### The callers -/

theorem newline_notMem_escByte (c : Byte) : newline ∉ escByte c := by
  unfold escByte
  split_ifs with h₁ h₂ h₃ h₄ h₅
  · decide
  · decide
  · decide
  · decide
  · intro hmem
    exact h₂ (List.mem_singleton.mp hmem).symm
  · exact List.not_mem_nil

theorem length_escByte_le (c : Byte) : (escByte c).length ≤ 2 := by
  unfold escByte
  split_ifs <;> simp

/-- The payload loop extends the buffer within its size and writes no newline. -/
theorem escPayload_spec (payload : List Byte) {tmp : List Byte} (hline : newline ∉ tmp)
    (hsize : tmp.length ≤ escSize) :
    newline ∉ escPayload tmp payload ∧ (escPayload tmp payload).length ≤ escSize ∧
      tmp.length ≤ (escPayload tmp payload).length := by
  induction payload generalizing tmp with
  | nil => exact ⟨hline, hsize, le_refl _⟩
  | cons c payload ih =>
    rw [escPayload]
    split_ifs with hgo
    · have hbyte := length_escByte_le c
      have hline' : newline ∉ tmp ++ escByte c := by
        rw [List.mem_append]
        exact fun hmem ↦ hmem.elim hline (newline_notMem_escByte c)
      have hgrow : (tmp ++ escByte c).length = tmp.length + (escByte c).length :=
        List.length_append
      have hroom := hgo.2
      rw [escSize] at hroom
      obtain ⟨hnone, hmax, hmin⟩ := ih hline' (by rw [hgrow, escSize]; omega)
      exact ⟨hnone, hmax, by omega⟩
    · exact ⟨hline, hsize, le_refl _⟩

/-- An escaped record is a record, if its tag is short, is not empty and has no newline. -/
theorem isRecord_escRecord {tag : List Byte} (htag : tag ≠ []) (hline : newline ∉ tag)
    (hshort : tag.length ≤ escSize - 2) (payload : List Byte) :
    IsRecord (escRecord tag payload) := by
  rw [escRecord, List.take_of_length_le hshort]
  obtain ⟨hnone, hmax, hmin⟩ := escPayload_spec payload hline (by omega)
  have hpos := List.length_pos_iff.mpr htag
  refine ⟨List.length_pos_iff.mp (by omega), hnone, hmax.trans (by decide)⟩

theorem newline_notMem_decimal (v : ℕ) : newline ∉ decimal v := fun hmem ↦
  absurd (digit_of_mem_decimal hmem) (by decide)

theorem newline_notMem_signedDecimal (v : BitVec 64) : newline ∉ signedDecimal v := by
  unfold signedDecimal
  split_ifs
  · rw [List.mem_cons]
    exact fun hmem ↦ hmem.elim (by decide) (newline_notMem_decimal _)
  · exact newline_notMem_decimal _

/-- A text printed into a buffer has no newline if its parts have none. -/
theorem newline_notMem_sprintk {cap : ℕ} {t : List Byte} (ht : newline ∉ t) :
    newline ∉ sprintk cap t :=
  fun hmem ↦ ht (List.mem_of_mem_take hmem)

theorem isRecord_spawnRecord (pid : BitVec 32) (name : TaskName) :
    IsRecord (spawnRecord pid name) := by
  have hname : newline ∉ name.text := by
    cases name <;> decide
  have hhead : newline ∉ sprintk 64 (ascii "[SPAWN] " ++ decimal pid.toNat) := by
    apply newline_notMem_sprintk
    rw [List.mem_append]
    exact fun hmem ↦ hmem.elim (by decide) (newline_notMem_decimal _)
  have hlen : (sprintk 64 (ascii "[SPAWN] " ++ decimal pid.toNat)).length =
      min 63 (8 + (decimal pid.toNat).length) := by
    rw [sprintk, List.length_take, List.length_append]
    rfl
  simp only [spawnRecord]
  generalize sprintk 64 (ascii "[SPAWN] " ++ decimal pid.toNat) = head at hhead hlen
  have hspace : newline ∉ (if head.length < 63 then head ++ [0x20] else head) := by
    split_ifs
    · rw [List.mem_append]
      exact fun hmem ↦ hmem.elim hhead (by decide)
    · exact hhead
  have hsize : 8 ≤ (if head.length < 63 then head ++ [0x20] else head).length ∧
      (if head.length < 63 then head ++ [0x20] else head).length ≤ 63 := by
    split_ifs
    · rw [List.length_append, List.length_singleton]
      omega
    · omega
  generalize (if head.length < 63 then head ++ [0x20] else head) = front at hspace hsize
  constructor
  · apply List.append_ne_nil_of_left_ne_nil
    exact List.length_pos_iff.mp (by omega)
  · rw [List.mem_append]
    exact fun hmem ↦ hmem.elim hspace fun h ↦ hname (List.mem_of_mem_take h)
  · rw [List.length_append, List.length_take, ilRingSize]
    omega

theorem isRecord_exitRecord (pid : BitVec 32) (code : BitVec 64) :
    IsRecord (exitRecord pid code) := by
  have hlen : (exitRecord pid code).length =
      min 47 (7 + (decimal pid.toNat ++ [0x20] ++ signedDecimal code).length) := by
    rw [exitRecord, sprintk, List.length_take, List.append_assoc, List.append_assoc,
      List.length_append, ← List.append_assoc]
    rfl
  constructor
  · exact List.length_pos_iff.mp (by omega)
  · apply newline_notMem_sprintk
    simp only [List.mem_append, not_or]
    exact ⟨⟨⟨by decide, newline_notMem_decimal _⟩, by decide⟩, newline_notMem_signedDecimal _⟩
  · rw [hlen, ilRingSize]
    omega

/-- The callers append records only. -/
theorem isRecord_of_mem_records {ev : Event} {r : List Byte} (hr : r ∈ ev.records) :
    IsRecord r := by
  cases ev with
  | command cmd out =>
    have hout : IsRecord (outRecord (captured out)) := by
      unfold outRecord
      split_ifs
      · exact isRecord_escRecord (by decide) (by decide) (by decide) _
      · exact isRecord_escRecord (by decide) (by decide) (by decide) _
    obtain hfirst | hlast := List.mem_append.mp hr
    · simp only [List.mem_cons, List.not_mem_nil, or_false] at hfirst
      obtain rfl | rfl := hfirst
      · exact ⟨by decide, by decide, by decide⟩
      · exact isRecord_escRecord (by decide) (by decide) (by decide) _
    · split_ifs at hlast
      · exact absurd hlast List.not_mem_nil
      · rwa [List.mem_singleton.mp hlast]
  | spawn pid name =>
    rw [List.mem_singleton.mp hr]
    exact isRecord_spawnRecord pid name
  | exit pid code =>
    rw [List.mem_singleton.mp hr]
    exact isRecord_exitRecord pid code

/-- An event appends its records one after the other. -/
theorem append_eq_foldlM (fuel : ℕ) (log : IlState) (ev : Event) :
    ev.append fuel log = ev.records.foldlM (ilAppend fuel) log := by
  cases ev with
  | command cmd out =>
    simp only [Event.append, Event.records, ilEndCapture, ilAppendEsc, List.cons_append,
      List.nil_append, List.foldlM_cons]
    split_ifs with hout
    · rfl
    · simp only [List.foldlM_cons, List.foldlM_nil, bind_pure]
  | spawn pid name => exact (bind_pure _).symm
  | exit pid code => exact (bind_pure _).symm

/-! ### The window -/

/-- After any sequence of appends to an empty log the array holds the longest suffix of the records
that fits, whole records only; every call returns, the spare byte is never used and the tail is the
last bytes. The callers of `ilAppend` append nothing but records. -/
theorem log_window :
    (∀ (ring : Mem) (recs : List (List Byte)), (∀ r ∈ recs, IsRecord r) →
      ∀ fuel, ilRingSize ≤ fuel →
        ∃ log w, recs.foldlM (ilAppend fuel) ⟨ring, 0, 0⟩ = some log ∧
          IsWindow recordSize (ilRingSize - 1) recs w ∧
          log.bytes = lines w ∧ log.records = w.length ∧ log.len < ilRingSize ∧
          ∀ cap, ilCopyTail log cap = log.bytes.drop (log.len - min cap log.len)) ∧
    ∀ ev : Event, (∀ r ∈ ev.records, IsRecord r) ∧
      ∀ fuel log, ev.append fuel log = ev.records.foldlM (ilAppend fuel) log := by
  constructor
  · intro ring recs hrecs fuel hfuel
    obtain ⟨log, hrun, hlog⟩ := foldlM_ilAppend_spec hfuel recs hrecs (holdsWindow_empty ring)
    rw [List.nil_append] at hlog
    have hwindow : IsWindow recordSize (ilRingSize - 1) recs
        (trim recordSize (ilRingSize - 1) recs) := isWindow_trim recs
    have hlen : log.len < ilRingSize := by
      have hfits := hwindow.fits
      rw [← hlog.len_eq] at hfits
      rw [ilRingSize] at hfits ⊢
      omega
    exact ⟨log, _, hrun, hwindow, hlog.bytes_eq, hlog.records_eq, hlen, ilCopyTail_eq log⟩
  · exact fun ev ↦ ⟨fun r ↦ isRecord_of_mem_records, fun fuel log ↦ append_eq_foldlM fuel log ev⟩

/-- The log after a command and an exit. -/
theorem log_window_exit :
    ∃ log w, [ascii "[TICK]", ascii "[EXIT] 1 0"].foldlM (ilAppend 65536) ⟨fun _ ↦ 0, 0, 0⟩ =
        some log ∧
      IsWindow recordSize (ilRingSize - 1) [ascii "[TICK]", ascii "[EXIT] 1 0"] w ∧
      log.bytes = lines w ∧ log.records = w.length ∧ log.len < ilRingSize ∧
      ∀ cap, ilCopyTail log cap = log.bytes.drop (log.len - min cap log.len) := by
  refine log_window.1 (fun _ ↦ 0) _ ?_ 65536 (by decide)
  intro r hr
  simp only [List.mem_cons, List.not_mem_nil, or_false] at hr
  obtain rfl | rfl := hr
  · exact ⟨by decide, by decide, by decide⟩
  · exact ⟨by decide, by decide, by decide⟩

end NoOsKernel.Log
