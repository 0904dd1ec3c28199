import NoOsKernel.Log.Records

/-!
# The checkpoint of the log

`il_save` writes the last `ilFileMax` bytes of the log to a file, cut to a record boundary, and
`il_load` reads the file back at boot. The scan for the boundary starts at the first byte of the
window, so it does not see that the window may begin with a record already: then the newline it
finds is the end of that record, and one record that would fit is left out.
-/

set_option autoImplicit false
set_option relaxedAutoImplicit false

namespace NoOsKernel.Log

open Lib Lib.Window Fs

/-- `interact.log` as the file operations keep it: its bytes, if there is such a file. -/
abbrev LogFile := Option (List Byte)

/-- `il_save`: whether the log is saved, and the file. `written` says whether the file operations
succeed. -/
def ilSave (written : Bool) (log : IlState) (file : LogFile) : Bool × LogFile :=
  if (ilWindow log.bytes).length = 0 then (false, file)
  else if written then (true, some (ilWindow log.bytes))
  else (false, file)

/-- `il_load`: a file that is empty or too long is left alone. -/
def ilLoad (file : LogFile) (log : IlState) : IlState :=
  match file with
  | none => log
  | some data =>
    if data.length = 0 ∨ ilFileMax < data.length then log
    else
      let ring := memcpy log.ring 0 data
      ⟨ring, data.length, (List.range data.length).countP fun i ↦ ring i = newline⟩

/-- A log that is saved comes back as the longest suffix of its records that fits the file. -/
def RoundTrips (log : IlState) : Prop :=
  ∀ w, Holds log w → ∀ before after later, ilSave true log before = (true, after) →
    ∃ v, IsWindow recordSize ilFileMax w v ∧ Holds (ilLoad after later) v

/-! ### Lines -/

theorem lines_cons (r : List Byte) (w : List (List Byte)) :
    lines (r :: w) = r ++ newline :: lines w := by
  rw [lines, List.flatMap_cons, List.append_assoc, List.singleton_append, ← lines]

theorem lines_append (v w : List (List Byte)) : lines (v ++ w) = lines v ++ lines w :=
  List.flatMap_append

/-- One newline a record. -/
theorem count_lines {w : List (List Byte)} (hw : ∀ r ∈ w, newline ∉ r) :
    (lines w).count newline = w.length := by
  induction w with
  | nil => rfl
  | cons r w ih =>
    have hr : r.count newline = 0 := List.count_eq_zero_of_not_mem (hw r List.mem_cons_self)
    rw [lines_cons, List.count_append, List.count_cons_self, hr, List.length_cons,
      ih fun r' hr' ↦ hw r' (List.mem_cons_of_mem _ hr')]
    omega

/-- The scan for a record boundary stops at the end of the line it starts in. -/
theorem findIdx?_line {r : List Byte} (hr : newline ∉ r) (rest : List Byte) :
    (r ++ newline :: rest).findIdx? (· = newline) = some r.length := by
  have hnone : r.findIdx? (· = newline) = none := by
    rw [List.findIdx?_eq_none_iff]
    intro c hc
    rw [decide_eq_false_iff_not]
    rintro rfl
    exact hr hc
  rw [List.findIdx?_append, hnone, Option.none_or, List.findIdx?_cons, if_pos (by rfl)]
  exact congrArg some (Nat.zero_add _)

/-! ### What is saved -/

/-- A log of at most `ilFileMax` bytes is saved as it is. -/
theorem ilWindow_of_le {t : List Byte} (ht : t.length ≤ ilFileMax) : ilWindow t = t := by
  rw [ilWindow, if_neg (by omega), Nat.min_eq_left ht, Nat.sub_self, List.drop_zero]

/-- Where the scan ends is where the saved part begins. -/
theorem ilWindow_of_scan {t r rest : List Byte} (hlong : ilFileMax < t.length)
    (hr : newline ∉ r) (hdrop : t.drop (t.length - ilFileMax) = r ++ newline :: rest) :
    ilWindow t = rest := by
  have hmin : min t.length ilFileMax = ilFileMax := by omega
  have hscan : (t.drop (t.length - ilFileMax)).findIdx? (· = 0x0a) = some r.length := by
    rw [hdrop]
    exact findIdx?_line hr rest
  simp only [ilWindow, if_pos hlong, hmin, hscan]
  rw [Nat.add_assoc, ← List.drop_drop, hdrop, List.append_cons r newline rest]
  exact List.drop_left' (by rw [List.length_append, List.length_singleton])

variable {pre v : List (List Byte)} {r : List Byte}

/-- The length of a log that is cut in front of `v`. -/
theorem length_lines_cut : (lines (pre ++ r :: v)).length =
    (lines pre).length + (r.length + 1) + total recordSize v := by
  rw [length_lines, length_lines, total_append, total_cons, recordSize]
  omega

/-- If the window begins inside a record, the records behind it are saved. -/
theorem ilWindow_inside (hr : newline ∉ r) (hfits : total recordSize v < ilFileMax)
    (hlt : ilFileMax < total recordSize (r :: v)) :
    ilWindow (lines (pre ++ r :: v)) = lines v := by
  rw [total_cons, recordSize] at hlt
  have hlen : (lines (pre ++ r :: v)).length = _ := length_lines_cut
  obtain ⟨k, hk⟩ : ∃ k, r.length + 1 + total recordSize v = ilFileMax + k :=
    ⟨r.length + 1 + total recordSize v - ilFileMax, by omega⟩
  apply ilWindow_of_scan (r := r.drop k) (by omega) fun hmem ↦ hr (List.mem_of_mem_drop hmem)
  rw [show (lines (pre ++ r :: v)).length - ilFileMax = (lines pre).length + k by omega,
    lines_append, lines_cons, ← List.drop_drop, List.drop_left,
    List.drop_append_of_le_length (by omega)]

/-- If the window begins with a record, that record is not saved. -/
theorem ilWindow_boundary {r' : List Byte} (hr' : newline ∉ r')
    (hfits : total recordSize (r' :: v) = ilFileMax) :
    ilWindow (lines (pre ++ r :: r' :: v)) = lines v := by
  have hlen : (lines (pre ++ r :: r' :: v)).length = _ := length_lines_cut
  apply ilWindow_of_scan (by omega) hr'
  have hoff : (lines (pre ++ r :: r' :: v)).length - ilFileMax = (lines (pre ++ [r])).length := by
    rw [hlen, hfits, length_lines, length_lines, total_append, total_cons, total_nil, recordSize]
    omega
  rw [hoff]
  rw [show pre ++ r :: r' :: v = (pre ++ [r]) ++ (r' :: v) by rw [List.append_assoc]; rfl,
    lines_append (pre ++ [r]), List.drop_left, lines_cons]

/-- The byte in front of the window is inside a record, unless the window begins with one. -/
theorem getElem?_before (pre : List (List Byte)) (hr : newline ∉ r)
    (hfits : total recordSize v ≤ ilFileMax) (hlt : ilFileMax < total recordSize (r :: v)) :
    (lines (pre ++ r :: v))[(lines (pre ++ r :: v)).length - ilFileMax - 1]? = some newline ↔
      total recordSize v = ilFileMax := by
  rw [total_cons, recordSize] at hlt
  have hlen : (lines (pre ++ r :: v)).length = _ := length_lines_cut
  obtain ⟨k, hk⟩ : ∃ k, r.length + 1 + total recordSize v = ilFileMax + (k + 1) :=
    ⟨r.length + total recordSize v - ilFileMax, by omega⟩
  rw [show (lines (pre ++ r :: v)).length - ilFileMax - 1 = (lines pre).length + k by omega,
    lines_append, lines_cons, List.getElem?_append_right (by omega), Nat.add_sub_cancel_left]
  constructor
  · intro hget
    by_contra hne
    rw [List.getElem?_append_left (by omega)] at hget
    exact hr (List.mem_of_getElem? hget)
  · intro heq
    rw [show k = r.length by omega, List.getElem?_append_right (le_refl _), Nat.sub_self,
      List.getElem?_cons_zero]

/-! ### What is restored -/

/-- The bytes a file is restored to. -/
theorem bytes_memcpy (ring : Mem) (data : List Byte) (records : ℕ) :
    (IlState.mk (memcpy ring 0 data) data.length records).bytes = data := by
  apply List.ext_getElem?
  intro k
  rw [getElem?_bytes]
  change (if k < data.length then some (memcpy ring 0 data k) else none) = _
  split_ifs with hk
  · rw [memcpy, if_pos ⟨Nat.zero_le k, by omega⟩, Nat.sub_zero, List.getD_eq_getElem?_getD,
      List.getElem?_eq_getElem hk, Option.getD_some]
  · rw [List.getElem?_eq_none (by omega)]

/-- A file of whole records is restored as these records. -/
theorem holds_ilLoad {w : List (List Byte)} (hw : ∀ r ∈ w, newline ∉ r) (hne : w ≠ [])
    (hfits : total recordSize w ≤ ilFileMax) (later : IlState) :
    Holds (ilLoad (some (lines w)) later) w := by
  have hpos : 0 < (lines w).length := by
    have hle := length_le_total w
    have hlen := List.length_pos_iff.mpr hne
    rw [length_lines]
    omega
  have hbytes : (ilLoad (some (lines w)) later).bytes = lines w := by
    rw [ilLoad, if_neg (by rw [length_lines] at hpos ⊢; omega)]
    exact bytes_memcpy _ _ _
  refine ⟨hbytes, ?_, hw⟩
  have hcount := congrArg (List.count newline) hbytes
  rw [count_lines hw, IlState.bytes, List.count, List.countP_map] at hcount
  rw [ilLoad, if_neg (by rw [length_lines] at hpos ⊢; omega)] at hcount ⊢
  rw [← hcount]
  apply List.countP_congr
  intro i _
  simp

/-- The records of a log are determined by its bytes. -/
theorem lines_injective {v w : List (List Byte)} (hv : ∀ r ∈ v, newline ∉ r)
    (hw : ∀ r ∈ w, newline ∉ r) (heq : lines v = lines w) : v = w := by
  induction v generalizing w with
  | nil =>
    cases w with
    | nil => rfl
    | cons r w =>
      rw [lines_cons] at heq
      exact absurd heq.symm (by simp [lines])
  | cons r v ih =>
    cases w with
    | nil =>
      rw [lines_cons] at heq
      exact absurd heq (by simp [lines])
    | cons r' w =>
      rw [lines_cons, lines_cons] at heq
      have hscan := congrArg (List.findIdx? (· = newline)) heq
      rw [findIdx?_line (hv r List.mem_cons_self),
        findIdx?_line (hw r' List.mem_cons_self)] at hscan
      obtain ⟨hr, hrest⟩ := List.append_inj heq (Option.some.inj hscan)
      rw [hr, ih (fun s hs ↦ hv s (List.mem_cons_of_mem _ hs))
        (fun s hs ↦ hw s (List.mem_cons_of_mem _ hs)) (List.cons.inj hrest).2]

/-! ### The round trip -/

/-- A log that is cut inside a record, or not at all, is saved as the window of its records. -/
theorem ilWindow_eq_trim {log : IlState} {w : List (List Byte)} (hlog : Holds log w)
    (hcut : log.len ≤ ilFileMax ∨ log.ring (log.len - ilFileMax - 1) ≠ newline) :
    ilWindow log.bytes = lines (trim recordSize ilFileMax w) := by
  by_cases hshort : log.len ≤ ilFileMax
  · rw [ilWindow_of_le (by rwa [length_bytes]), hlog.bytes_eq,
      trim_of_fits (by rwa [← hlog.len_eq])]
  · have hover : ilFileMax < total recordSize w := by
      rw [← hlog.len_eq]
      omega
    obtain ⟨pre, r, hw, hlt⟩ := exists_append_trim hover
    have hfits := (isWindow_trim w : IsWindow recordSize ilFileMax w _).fits
    have hr : newline ∉ r := hlog.oneLine r (by rw [hw]; simp)
    have hbytes := hlog.bytes_eq
    rw [hw] at hbytes
    have hbefore := getElem?_before pre hr hfits hlt
    rw [← hbytes, length_bytes, getElem?_bytes, if_pos (by omega), Option.some_inj] at hbefore
    have hne := mt hbefore.mpr (hcut.resolve_left hshort)
    rw [hbytes]
    exact ilWindow_inside hr (by omega) hlt

/-- A log whose window begins with a record is saved without that record. -/
theorem ilWindow_eq_tail {log : IlState} {w : List (List Byte)} (hlog : Holds log w)
    (hlong : ilFileMax < log.len) (hcut : log.ring (log.len - ilFileMax - 1) = newline) :
    total recordSize (trim recordSize ilFileMax w) = ilFileMax ∧
      ilWindow log.bytes = lines (trim recordSize ilFileMax w).tail := by
  have hover : ilFileMax < total recordSize w := hlog.len_eq ▸ hlong
  obtain ⟨pre, r, hw, hlt⟩ := exists_append_trim hover
  have hfits := (isWindow_trim w : IsWindow recordSize ilFileMax w _).fits
  have hsuffix := (isWindow_trim w : IsWindow recordSize ilFileMax w _).suffix
  have hr : newline ∉ r := hlog.oneLine r (by rw [hw]; simp)
  have hbytes := hlog.bytes_eq
  rw [hw] at hbytes
  have hbefore := getElem?_before pre hr hfits hlt
  rw [← hbytes, length_bytes, getElem?_bytes, if_pos (by omega), Option.some_inj] at hbefore
  have htotal := hbefore.mp hcut
  refine ⟨htotal, ?_⟩
  rw [hbytes]
  generalize trim recordSize ilFileMax w = v at *
  cases v with
  | nil => exact absurd htotal (by decide)
  | cons r' v =>
    exact ilWindow_boundary (hlog.oneLine r' (hsuffix.subset List.mem_cons_self)) htotal

/-- What is saved of a window of the records. -/
theorem roundTrips_of_cut {log : IlState}
    (hcut : log.len ≤ ilFileMax ∨ log.ring (log.len - ilFileMax - 1) ≠ newline) :
    RoundTrips log := by
  intro w hlog before after later hsave
  have hwindow : IsWindow recordSize ilFileMax w (trim recordSize ilFileMax w) := isWindow_trim w
  rw [ilSave, ilWindow_eq_trim hlog hcut, if_pos rfl] at hsave
  split_ifs at hsave with hempty
  · exact absurd (Prod.mk.inj hsave).1 Bool.false_ne_true
  · rw [← (Prod.mk.inj hsave).2]
    refine ⟨_, hwindow, holds_ilLoad ?_ ?_ hwindow.fits later⟩
    · exact fun r hr ↦ hlog.oneLine r (hwindow.suffix.subset hr)
    · intro hnil
      rw [hnil] at hempty
      exact hempty rfl

/-- A checkpoint that begins with a record loses it. -/
theorem not_roundTrips_of_boundary {log : IlState} {w : List (List Byte)} (hlog : Holds log w)
    (hsize : ∀ r ∈ w, r.length ≤ 2112) (hlong : ilFileMax < log.len)
    (hcut : log.ring (log.len - ilFileMax - 1) = newline) : ¬ RoundTrips log := by
  intro hround
  have hwindow : IsWindow recordSize ilFileMax w (trim recordSize ilFileMax w) := isWindow_trim w
  obtain ⟨htotal, hsaved⟩ := ilWindow_eq_tail hlog hlong hcut
  have hround := hround w hlog none (some (ilWindow log.bytes)) log
  have hline : ∀ r ∈ trim recordSize ilFileMax w, newline ∉ r :=
    fun r hr ↦ hlog.oneLine r (hwindow.suffix.subset hr)
  have hshort : ∀ r ∈ trim recordSize ilFileMax w, r.length ≤ 2112 :=
    fun r hr ↦ hsize r (hwindow.suffix.subset hr)
  rw [hsaved] at hround
  obtain ⟨r, r', v, hv⟩ : ∃ r r' v, trim recordSize ilFileMax w = r :: r' :: v := by
    -- two records at least, since one of them takes 2113 bytes at most
    generalize trim recordSize ilFileMax w = v at *
    match v with
    | [] => exact absurd htotal (by decide)
    | [r] =>
      have := hshort r List.mem_cons_self
      rw [total_cons, total_nil, recordSize, ilFileMax] at htotal
      omega
    | r :: r' :: v => exact ⟨r, r', v, rfl⟩
  have hne : (lines (r' :: v)).length ≠ 0 := by
    rw [length_lines, total_cons, recordSize]
    omega
  rw [hv] at hline htotal hsaved hround
  have hfits : total recordSize (r' :: v) ≤ ilFileMax := by
    rw [total_cons] at htotal
    omega
  obtain ⟨u, hu, hrestored⟩ :=
    hround (by rw [ilSave, hsaved, List.tail_cons, if_neg hne, if_pos rfl])
  have hkept := holds_ilLoad (fun s hs ↦ hline s (List.mem_cons_of_mem _ hs))
    (List.cons_ne_nil r' v) hfits log
  have heq : u = r' :: v := by
    apply lines_injective hrestored.oneLine hkept.oneLine
    rw [← hrestored.bytes_eq, ← hkept.bytes_eq]
    rfl
  have hlen := congrArg List.length (hu.eq_trim.symm.trans heq)
  rw [hv, List.length_cons] at hlen
  omega

/-- A checkpoint round trips exactly if the whole log fits the file or the window begins inside a
record. -/
theorem checkpoint_roundTrips_iff {fuel : ℕ} (hfuel : ilRingSize ≤ fuel) (ring : Mem)
    {recs : List (List Byte)}
    (hrecs : ∀ r ∈ recs, r ≠ [] ∧ newline ∉ r ∧ r.length ≤ 2112) {log : IlState}
    (hrun : recs.foldlM (ilAppend fuel) ⟨ring, 0, 0⟩ = some log) :
    RoundTrips log ↔
      (log.len ≤ ilFileMax ∨ log.ring (log.len - ilFileMax - 1) ≠ newline) := by
  have hisRecord : ∀ r ∈ recs, IsRecord r := by
    intro r hr
    obtain ⟨hne, hline, hsize⟩ := hrecs r hr
    exact ⟨hne, hline, hsize.trans (by decide)⟩
  obtain ⟨log', hrun', hlog⟩ := foldlM_ilAppend_spec hfuel recs hisRecord (holdsWindow_empty ring)
  obtain rfl : log' = log := Option.some.inj (hrun'.symm.trans hrun)
  rw [List.nil_append] at hlog
  constructor
  · intro hround
    by_contra hcut
    obtain ⟨hlong, hbefore⟩ := not_or.mp hcut
    refine not_roundTrips_of_boundary hlog ?_ (by omega) (not_not.mp hbefore) hround
    have hwindow : IsWindow recordSize (ilRingSize - 1) recs _ := isWindow_trim recs
    exact fun r hr ↦ (hrecs r (hwindow.suffix.subset hr)).2.2
  · exact roundTrips_of_cut

/-- Three records of 2000 bytes: the last 4096 bytes of the log begin inside the first of them. -/
theorem checkpoint_roundTrips_iff_threeRecords :
    ∃ log, (List.replicate 3 (List.replicate 2000 0x61)).foldlM (ilAppend 65536) ⟨fun _ ↦ 0, 0, 0⟩ =
        some log ∧ ilFileMax < log.len ∧ RoundTrips log := by
  have hrecs : ∀ r ∈ List.replicate 3 (List.replicate 2000 (0x61 : Byte)),
      r ≠ [] ∧ newline ∉ r ∧ r.length ≤ 2112 := by
    intro r hr
    obtain rfl := List.eq_of_mem_replicate hr
    refine ⟨List.replicate_succ_ne_nil, fun hmem ↦ ?_, by rw [List.length_replicate]; omega⟩
    exact absurd (List.eq_of_mem_replicate hmem) (by decide)
  obtain ⟨log, hrun, hlog⟩ := foldlM_ilAppend_spec (show ilRingSize ≤ 65536 by decide) _
    (fun r hr ↦ ⟨(hrecs r hr).1, (hrecs r hr).2.1, (hrecs r hr).2.2.trans (by decide)⟩)
    (holdsWindow_empty fun _ ↦ 0)
  have htotal : total recordSize (List.replicate 3 (List.replicate 2000 (0x61 : Byte))) = 6003 := by
    change total recordSize [_, _, _] = 6003
    simp only [total_cons, total_nil, recordSize, List.length_replicate]
  rw [List.nil_append, HoldsWindow, trim_of_fits (by rw [htotal, ilRingSize]; omega)] at hlog
  have hlen : log.len = 6003 := hlog.len_eq.trans htotal
  have hbefore : log.ring 1906 = 0x61 := by
    have hbyte : (lines (List.replicate 3 (List.replicate 2000 (0x61 : Byte))))[1906]? =
        some 0x61 := by decide +kernel
    rwa [← hlog.bytes_eq, getElem?_bytes, if_pos (by omega), Option.some_inj] at hbyte
  refine ⟨log, hrun, by rw [hlen, ilFileMax]; omega,
    (checkpoint_roundTrips_iff (by decide) (fun _ ↦ 0) hrecs hrun).mpr (Or.inr ?_)⟩
  rw [hlen, ilFileMax, hbefore]
  decide

/-- Two records that take exactly `ilFileMax` bytes. -/
def fullPage : List (List Byte) := [List.replicate 2047 0x61, List.replicate 2047 0x61]

theorem total_fullPage : total recordSize fullPage = ilFileMax := by
  simp only [fullPage, total_cons, total_nil, recordSize, List.length_replicate, ilFileMax]

theorem short_of_mem_fullPage :
    ∀ r ∈ [0x61] :: fullPage, r ≠ [] ∧ newline ∉ r ∧ r.length ≤ 2112 := by
  intro r hr
  simp only [fullPage, List.mem_cons, List.not_mem_nil, or_false, or_self] at hr
  obtain rfl | rfl := hr
  · decide
  · refine ⟨?_, ?_, ?_⟩
    · exact List.length_pos_iff.mp (by rw [List.length_replicate]; omega)
    · intro hmem
      exact absurd (List.eq_of_mem_replicate hmem) (by decide)
    · rw [List.length_replicate]
      omega

/-- Behind another record, the first of the two is lost. -/
theorem fullPage_lost :
    ∃ log, ([0x61] :: fullPage).foldlM (ilAppend 65536) ⟨fun _ ↦ 0, 0, 0⟩ = some log ∧
      (∀ r ∈ [0x61] :: fullPage, r ≠ [] ∧ newline ∉ r ∧ r.length ≤ 2112) ∧ ¬ RoundTrips log := by
  have hrecs := short_of_mem_fullPage
  obtain ⟨log, hrun, hlog⟩ := foldlM_ilAppend_spec (show ilRingSize ≤ 65536 by decide)
    ([0x61] :: fullPage)
    (fun r hr ↦ ⟨(hrecs r hr).1, (hrecs r hr).2.1, (hrecs r hr).2.2.trans (by decide)⟩)
    (holdsWindow_empty fun _ ↦ 0)
  have htotal : total recordSize ([0x61] :: fullPage) = ilFileMax + 2 := by
    rw [total_cons, total_fullPage, recordSize, List.length_singleton, Nat.add_comm]
  rw [List.nil_append, HoldsWindow,
    trim_of_fits (by rw [htotal, ilFileMax, ilRingSize]; omega)] at hlog
  have hlen : log.len = ilFileMax + 2 := hlog.len_eq.trans htotal
  have hline : newline ∉ [(0x61 : Byte)] := by decide
  have hbefore := (getElem?_before [] hline total_fullPage.le (by rw [htotal]; omega)).mpr
    total_fullPage
  rw [List.nil_append, ← hlog.bytes_eq, length_bytes, getElem?_bytes, if_pos (by omega),
    Option.some_inj] at hbefore
  exact ⟨log, hrun, hrecs, not_roundTrips_of_boundary hlog (fun r hr ↦ (hrecs r hr).2.2) (by omega)
    hbefore⟩

end NoOsKernel.Log
