import NoOsKernel.Fs.SaveFile

/-!
# Running a script

`Run` reads a file into a heap buffer and feeds its lines to `noc_exec_line`. The loop cuts the
buffer at every newline and goes on behind it, but its index is reset to zero inside the body and
then incremented, so that the first byte of every later line is never tested. A newline there ends
up inside the next string; the NUL at the end of the file is stepped over if the last newline of
the file is cut. `run_executes_lines_iff` says for which files this happens.
-/

set_option autoImplicit false
set_option relaxedAutoImplicit false

namespace NoOsKernel.Fs

open Lib

/-! ### The loop of `Run` -/

/-- The bytes of a memory from an address on. -/
def bytesAt (src : ℕ → Byte) (p len : ℕ) : CStr := (List.range len).map fun k ↦ src (p + k)

/-- The loop of `b_Run`: the memory from the start of the source buffer, `line` and `i`, with the
indices of the buffer that were read and the strings that were passed to `noc_exec_line`. -/
structure ScriptCursor where
  src : ℕ → Byte
  line : ℕ
  i : ℕ
  reads : List ℕ
  passed : List CStr

namespace ScriptCursor

/-- `line[k]` is read. -/
def read (σ : ScriptCursor) (k : ℕ) : ScriptCursor := { σ with reads := σ.reads ++ [σ.line + k] }

/-- `line[k] = '\0'`. -/
def clear (σ : ScriptCursor) (k : ℕ) : ScriptCursor :=
  { σ with src := Function.update σ.src (σ.line + k) 0 }

/-- The string at `line`, whose NUL is `line[k]` or comes before. -/
def text (σ : ScriptCursor) (k : ℕ) : CStr := (bytesAt σ.src σ.line k).takeWhile fun b ↦ b ≠ 0

/-- The string at `line` is read up to its NUL. -/
def readText (σ : ScriptCursor) (k : ℕ) : ScriptCursor :=
  { σ with reads := σ.reads ++ (List.range ((σ.text k).length + 1)).map fun j ↦ σ.line + j }

/-- `if (k > 0 && line[k - 1] == '\r') line[k - 1] = '\0'`. -/
def cutCR (σ : ScriptCursor) (k : ℕ) : ScriptCursor :=
  if k > 0 then
    let σ := σ.read (k - 1)
    if σ.src (σ.line + (k - 1)) = 0x0d then σ.clear (k - 1) else σ
  else σ

/-- `noc_exec_line(line)`; `exec` is what running a line does to the memory. -/
def execLine (exec : CStr → (ℕ → Byte) → ℕ → Byte) (σ : ScriptCursor) (k : ℕ) : ScriptCursor :=
  let σ := σ.readText k
  { σ with src := exec (σ.text k) σ.src, passed := σ.passed ++ [σ.text k] }

/-- The body of the loop at a newline. -/
def cut (exec : CStr → (ℕ → Byte) → ℕ → Byte) (σ : ScriptCursor) : ScriptCursor :=
  let σ := ((σ.clear σ.i).cutCR σ.i).execLine exec σ.i
  { σ with line := σ.line + σ.i + 1, i := 0 }

/-- `i++`. -/
def next (σ : ScriptCursor) : ScriptCursor := { σ with i := σ.i + 1 }

end ScriptCursor

/-- The loop of `b_Run`; the fuel bounds its rounds. -/
def runLoop (exec : CStr → (ℕ → Byte) → ℕ → Byte) : ℕ → ScriptCursor → Option ScriptCursor
  | 0, _ => none
  | fuel + 1, σ =>
    let σ := σ.read σ.i
    if σ.src (σ.line + σ.i) = 0 then some σ
    else
      let σ := σ.read σ.i
      if σ.src (σ.line + σ.i) = 0x0a then runLoop exec fuel (σ.cut exec).next
      else runLoop exec fuel σ.next

/-- What follows the loop: the last line, if it has no newline. The loop ended at `line[i]`, so
`strlen(line)` is at most `i`. -/
def runTail (exec : CStr → (ℕ → Byte) → ℕ → Byte) (σ : ScriptCursor) : ScriptCursor :=
  let σ := σ.read 0
  if σ.src σ.line = 0 then σ
  else
    let ll := (σ.text σ.i).length
    ((σ.readText σ.i).cutCR ll).execLine exec ll

/-- A line without one carriage return at its end. -/
def withoutCR (l : CStr) : CStr := if l.getLast? = some 0x0d then l.dropLast else l

/-- What the loop passes when the bytes `acc` lie between `line` and `line[i]` and the bytes of the
file from there on are `rest`; `none` if it steps over the NUL at the end. -/
def linesPassed : CStr → CStr → Option (List CStr)
  | acc, [] => some (if acc = [] then [] else [withoutCR acc])
  | acc, b :: rest =>
    if b = 0x0a then
      match rest with
      | [] => none
      | c :: rest => (linesPassed [c] rest).map fun ls ↦ withoutCR acc :: ls
    else linesPassed (acc ++ [b]) rest

theorem bytesAt_cons (src : ℕ → Byte) (p len : ℕ) :
    bytesAt src p (len + 1) = src p :: bytesAt src (p + 1) len := by
  unfold bytesAt
  rw [List.range_succ_eq_map, List.map_cons, List.map_map]
  refine congrArg _ (List.map_congr_left fun k _ ↦ ?_)
  rw [Function.comp_apply, Nat.succ_eq_add_one, Nat.add_assoc, Nat.add_comm k]

theorem bytesAt_succ (src : ℕ → Byte) (p len : ℕ) :
    bytesAt src p (len + 1) = bytesAt src p len ++ [src (p + len)] := by
  unfold bytesAt
  rw [List.range_succ, List.map_append, List.map_singleton]

theorem bytesAt_congr {src src' : ℕ → Byte} {p len : ℕ}
    (h : ∀ k, p ≤ k → k < p + len → src' k = src k) : bytesAt src' p len = bytesAt src p len :=
  List.map_congr_left fun k hk ↦
    h _ (Nat.le_add_right p k) (Nat.add_lt_add_left (List.mem_range.mp hk) p)

theorem length_bytesAt (src : ℕ → Byte) (p len : ℕ) : (bytesAt src p len).length = len := by
  rw [bytesAt, List.length_map, List.length_range]

section Loop

variable {exec : CStr → (ℕ → Byte) → ℕ → Byte} {n : ℕ} {σ τ : ScriptCursor} {acc rest : CStr}

/-- Nothing behind the index was read. -/
def ReadsWithin (n : ℕ) (σ : ScriptCursor) : Prop := ∀ k ∈ σ.reads, k ≤ n

theorem ReadsWithin.read (h : ReadsWithin n σ) {k : ℕ} (hk : σ.line + k ≤ n) :
    ReadsWithin n (σ.read k) :=
  List.forall_mem_append.mpr ⟨h, List.forall_mem_singleton.mpr hk⟩

theorem length_text (σ : ScriptCursor) (k : ℕ) : (σ.text k).length ≤ k :=
  (List.takeWhile_prefix _).length_le.trans (length_bytesAt _ _ _).le

theorem ReadsWithin.readText (h : ReadsWithin n σ) {k : ℕ} (hk : σ.line + k ≤ n) :
    ReadsWithin n (σ.readText k) := by
  refine List.forall_mem_append.mpr ⟨h, List.forall_mem_map.mpr fun j hj ↦ ?_⟩
  have hlen := length_text σ k
  have hlt := List.mem_range.mp hj
  omega

theorem cutCR_line (σ : ScriptCursor) (k : ℕ) : (σ.cutCR k).line = σ.line := by
  unfold ScriptCursor.cutCR
  dsimp only
  split_ifs <;> rfl

theorem cutCR_i (σ : ScriptCursor) (k : ℕ) : (σ.cutCR k).i = σ.i := by
  unfold ScriptCursor.cutCR
  dsimp only
  split_ifs <;> rfl

theorem cutCR_passed (σ : ScriptCursor) (k : ℕ) : (σ.cutCR k).passed = σ.passed := by
  unfold ScriptCursor.cutCR
  dsimp only
  split_ifs <;> rfl

theorem cutCR_src (σ : ScriptCursor) {k j : ℕ} (h : σ.line + k ≤ j) :
    (σ.cutCR k).src j = σ.src j := by
  unfold ScriptCursor.cutCR
  dsimp only
  split_ifs with hpos
  · exact Function.update_of_ne (by change j ≠ σ.line + (k - 1); omega) _ _
  · rfl
  · rfl

theorem ReadsWithin.cutCR (h : ReadsWithin n σ) {k : ℕ} (hk : σ.line + k ≤ n) :
    ReadsWithin n (σ.cutCR k) := by
  have hread : ReadsWithin n (σ.read (k - 1)) := h.read (by omega)
  unfold ScriptCursor.cutCR
  dsimp only
  split_ifs
  · exact hread
  · exact hread
  · exact h

theorem text_of_bytesAt {l : CStr} (hl : bytesAt σ.src σ.line l.length = l) (hnul : 0 ∉ l) :
    σ.text l.length = l := by
  rw [ScriptCursor.text, hl]
  exact List.takeWhile_eq_self_iff.mpr fun b hb ↦ decide_eq_true fun hzero ↦ hnul (hzero ▸ hb)

/-- The string at `line` once its carriage return is cut. -/
theorem text_cutCR {l : CStr} (hl : bytesAt σ.src σ.line l.length = l) (hnul : 0 ∉ l) :
    (σ.cutCR l.length).text l.length = withoutCR l := by
  obtain rfl | ⟨k, b, rfl⟩ := l.eq_nil_or_concat
  · rfl
  · rw [List.concat_eq_append] at hl hnul ⊢
    have htext := text_of_bytesAt hl hnul
    rw [List.length_append, List.length_singleton] at hl htext ⊢
    rw [bytesAt_succ] at hl
    obtain ⟨hk, hb⟩ := List.append_inj' hl rfl
    have hb : σ.src (σ.line + k.length) = b := List.singleton_inj.mp hb
    unfold ScriptCursor.cutCR withoutCR
    rw [if_pos k.length.succ_pos, Nat.add_sub_cancel, List.getLast?_concat, List.dropLast_concat]
    change (if σ.src (σ.line + k.length) = 0x0d then _ else _ : ScriptCursor).text _ = _
    rw [hb]
    by_cases hcr : b = 0x0d
    · rw [if_pos hcr, if_pos (congrArg some hcr)]
      change (bytesAt (Function.update σ.src (σ.line + k.length) 0) σ.line _).takeWhile _ = k
      rw [bytesAt_succ, Function.update_self, bytesAt_congr fun j _ hj ↦
        Function.update_of_ne hj.ne _ _, hk, List.takeWhile_append_of_pos,
        List.takeWhile_cons_of_neg, List.append_nil]
      · decide
      · exact fun a ha ↦ decide_eq_true fun hzero ↦ hnul (List.mem_append_left _ (hzero ▸ ha))
    · rw [if_neg hcr, if_neg fun h ↦ hcr (Option.some.inj h)]
      exact htext

/-- The cursor stands in a file of `n` bytes: `acc` lies between `line` and `line[i]`, and `rest`
with the NUL at the end from there on. -/
structure Standing (n : ℕ) (σ : ScriptCursor) (acc rest : CStr) : Prop where
  i : σ.i = acc.length
  length : σ.line + acc.length + rest.length = n
  before : bytesAt σ.src σ.line acc.length = acc
  after : bytesAt σ.src (σ.line + acc.length) (rest.length + 1) = rest ++ [0]
  reads : ReadsWithin n σ

namespace Standing

theorem read (h : Standing n σ acc rest) : Standing n (σ.read σ.i) acc rest :=
  { h with reads := h.reads.read (by have := h.i; have := h.length; omega) }

theorem nul (h : Standing n σ acc []) : σ.src (σ.line + σ.i) = 0 := by
  have hrest := h.after
  rw [List.length_nil, bytesAt_cons] at hrest
  rw [h.i]
  exact (List.cons.inj hrest).1

variable {b : Byte}

theorem head (h : Standing n σ acc (b :: rest)) : σ.src (σ.line + σ.i) = b := by
  have hrest := h.after
  rw [List.length_cons, bytesAt_cons] at hrest
  rw [h.i]
  exact (List.cons.inj hrest).1

theorem tail (h : Standing n σ acc (b :: rest)) :
    bytesAt σ.src (σ.line + acc.length + 1) (rest.length + 1) = rest ++ [0] := by
  have hrest := h.after
  rw [List.length_cons, bytesAt_cons] at hrest
  exact (List.cons.inj hrest).2

/-- `i++` takes the next byte of the file. -/
theorem next (h : Standing n σ acc (b :: rest)) : Standing n σ.next (acc ++ [b]) rest := by
  have hlen := h.length
  rw [List.length_cons] at hlen
  refine ⟨?_, ?_, ?_, ?_, h.reads⟩
  · rw [List.length_append, List.length_singleton, ← h.i]
    rfl
  · rw [List.length_append, List.length_singleton]
    change σ.line + (acc.length + 1) + rest.length = n
    omega
  · rw [List.length_append, List.length_singleton, bytesAt_succ]
    change bytesAt σ.src σ.line acc.length ++ [σ.src (σ.line + acc.length)] = _
    rw [h.before, ← h.i, h.head]
  · rw [List.length_append, List.length_singleton]
    exact h.tail

end Standing

/-- Running a line leaves the buffer up to the index. -/
def KeepsSource (exec : CStr → (ℕ → Byte) → ℕ → Byte) (n : ℕ) : Prop :=
  ∀ l src k, k ≤ n → exec l src k = src k

/-- A newline that is found is cut off with what precedes it, and the rest of the file is left. -/
theorem Standing.cut (h : Standing n σ acc (0x0a :: rest)) (hkeep : KeepsSource exec n)
    (hnul : 0 ∉ acc) : Standing n (σ.cut exec) [] rest ∧
      (σ.cut exec).passed = σ.passed ++ [withoutCR acc] := by
  have hlen := h.length
  rw [List.length_cons] at hlen
  have hfits : σ.line + acc.length ≤ n := by omega
  set σ₁ := σ.clear σ.i with hσ₁
  have hacc : bytesAt σ₁.src σ₁.line acc.length = acc := by
    rw [← h.before, length_bytesAt]
    refine bytesAt_congr fun k _ hk ↦ Function.update_of_ne ?_ _ _
    rw [h.i]
    exact hk.ne
  have hreads : ReadsWithin n (σ₁.cutCR σ.i) :=
    ReadsWithin.cutCR (σ := σ₁) h.reads (by rw [h.i]; exact hfits)
  have hline : (σ₁.cutCR σ.i).line = σ.line := cutCR_line σ₁ σ.i
  have hsrc : ∀ k, σ.line + acc.length < k → k ≤ n → (σ.cut exec).src k = σ.src k := fun k hk hkn ↦ by
    change exec _ (σ₁.cutCR σ.i).src k = σ.src k
    rw [hkeep _ _ _ hkn, cutCR_src σ₁ (by change σ.line + σ.i ≤ k; rw [h.i]; exact hk.le)]
    exact Function.update_of_ne (by rw [h.i]; exact hk.ne') _ _
  have hnext : (σ.cut exec).line = σ.line + acc.length + 1 := by
    change (σ₁.cutCR σ.i).line + (σ₁.cutCR σ.i).i + 1 = _
    rw [hline, cutCR_i, ← h.i]
    rfl
  constructor
  · constructor
    · rfl
    · rw [hnext, List.length_nil]
      omega
    · rfl
    · rw [hnext, List.length_nil, Nat.add_zero, ← h.tail]
      exact bytesAt_congr fun k hk hkn ↦ hsrc k hk (by omega)
    · exact ReadsWithin.readText hreads (by rw [hline, h.i]; exact hfits)
  · change (σ₁.cutCR σ.i).passed ++ [(σ₁.cutCR σ.i).text σ.i] = _
    rw [cutCR_passed, h.i, text_cutCR hacc hnul]
    rfl

/-! ### The whole loop -/

/-- At the end of the file the last line is passed, if there is one. -/
theorem Standing.runTail (h : Standing n σ acc []) (hnul : 0 ∉ acc) :
    (runTail exec σ).passed = σ.passed ++ (if acc = [] then [] else [withoutCR acc]) ∧
      ReadsWithin n (Fs.runTail exec σ) := by
  have hlen := h.length
  rw [List.length_nil, Nat.add_zero] at hlen
  have hread : ReadsWithin n (σ.read 0) := h.reads.read (by omega)
  have hzero : σ.src σ.line = 0 ↔ acc = [] := by
    cases acc with
    | nil =>
      have hend := h.nul
      rw [h.i] at hend
      exact iff_of_true hend rfl
    | cons b l =>
      have hbytes := h.before
      rw [List.length_cons, bytesAt_cons] at hbytes
      rw [(List.cons.inj hbytes).1]
      exact iff_of_false (fun hb ↦ hnul (hb ▸ List.mem_cons_self)) (List.cons_ne_nil b l)
  by_cases hacc : acc = []
  · have htail : Fs.runTail exec σ = σ.read 0 := if_pos (hzero.mpr hacc)
    rw [htail, if_pos hacc, List.append_nil]
    exact ⟨rfl, hread⟩
  · set σ₁ := (σ.read 0).readText σ.i with hσ₁
    have htext : (σ.read 0).text acc.length = acc := text_of_bytesAt h.before hnul
    have htail : Fs.runTail exec σ =
        (σ₁.cutCR ((σ.read 0).text σ.i).length).execLine exec ((σ.read 0).text σ.i).length :=
      if_neg (mt hzero.mp hacc)
    rw [htail, h.i, htext, if_neg hacc]
    have hreads : ReadsWithin n (σ₁.cutCR acc.length) :=
      (hread.readText (by rw [h.i]; exact hlen.le)).cutCR hlen.le
    constructor
    · change (σ₁.cutCR acc.length).passed ++ [(σ₁.cutCR acc.length).text acc.length] = _
      rw [cutCR_passed, @text_cutCR σ₁ acc h.before hnul]
      rfl
    · exact hreads.readText (by rw [cutCR_line]; exact hlen.le)

/-- Reads are never forgotten. -/
theorem mem_reads_cutCR {k j : ℕ} (h : k ∈ σ.reads) : k ∈ (σ.cutCR j).reads := by
  unfold ScriptCursor.cutCR
  dsimp only
  split_ifs
  · exact List.mem_append_left _ h
  · exact List.mem_append_left _ h
  · exact h

/-- One round of the loop. -/
theorem runLoop_succ (fuel : ℕ) : runLoop exec (fuel + 1) σ =
    if (σ.read σ.i).src (σ.line + σ.i) = 0 then some (σ.read σ.i)
    else if σ.src (σ.line + σ.i) = 0x0a then
      runLoop exec fuel (((σ.read σ.i).read σ.i).cut exec).next
    else runLoop exec fuel ((σ.read σ.i).read σ.i).next :=
  rfl

theorem mem_reads_runLoop {fuel k : ℕ} (h : k ∈ σ.reads) (hrun : runLoop exec fuel σ = some τ) :
    k ∈ τ.reads := by
  induction fuel generalizing σ with
  | zero => exact absurd hrun nofun
  | succ fuel ih =>
    have hread : k ∈ (σ.read σ.i).reads := List.mem_append_left _ h
    rw [runLoop_succ] at hrun
    split_ifs at hrun
    · rwa [← Option.some.inj hrun]
    · exact ih (List.mem_append_left _ (mem_reads_cutCR (List.mem_append_left _ hread))) hrun
    · exact ih (List.mem_append_left _ hread) hrun

/-- A loop that goes on reads `line[i]`. -/
theorem mem_reads_of_runLoop {fuel : ℕ} (hrun : runLoop exec fuel σ = some τ) :
    σ.line + σ.i ∈ τ.reads := by
  cases fuel with
  | zero => exact absurd hrun nofun
  | succ fuel =>
    have hread : σ.line + σ.i ∈ (σ.read σ.i).reads :=
      List.mem_append_right _ (List.mem_singleton_self _)
    rw [runLoop_succ] at hrun
    split_ifs at hrun
    · rwa [← Option.some.inj hrun]
    · exact mem_reads_runLoop
        (List.mem_append_left _ (mem_reads_cutCR (List.mem_append_left _ hread))) hrun
    · exact mem_reads_runLoop (List.mem_append_left _ hread) hrun

/-- What a run of the loop comes to: it ends and has passed these strings without a read behind
index `n`, or it reads index `n + 1`, if it ends at all. -/
def Passes (exec : CStr → (ℕ → Byte) → ℕ → Byte) (n : ℕ) (σ : ScriptCursor) :
    Option (List CStr) → Prop
  | some ls => ∃ fuel τ, runLoop exec fuel σ = some τ ∧
      (runTail exec τ).passed = σ.passed ++ ls ∧ ReadsWithin n (runTail exec τ)
  | none => ∀ fuel τ, runLoop exec fuel σ = some τ → n + 1 ∈ τ.reads

theorem Passes.step {ls : List CStr} {r : Option (List CStr)}
    (hloop : ∀ fuel, runLoop exec (fuel + 1) σ = runLoop exec fuel τ)
    (hpassed : τ.passed = σ.passed ++ ls) (h : Passes exec n τ r) :
    Passes exec n σ (r.map fun ls' ↦ ls ++ ls') := by
  cases r with
  | some ls' =>
    obtain ⟨fuel, υ, hrun, hpass, hreads⟩ := h
    refine ⟨fuel + 1, υ, (hloop fuel).trans hrun, ?_, hreads⟩
    rw [hpass, hpassed, List.append_assoc]
  | none =>
    intro fuel υ hrun
    cases fuel with
    | zero => exact absurd hrun nofun
    | succ fuel => exact h fuel υ ((hloop fuel).symm.trans hrun)

/-- One round of the loop at a newline, and at any other byte of the file. -/
theorem Standing.runLoop_newline (h : Standing n σ acc (0x0a :: rest)) (fuel : ℕ) :
    runLoop exec (fuel + 1) σ =
      runLoop exec fuel (((σ.read σ.i).read σ.i).cut exec).next := by
  have hne : σ.src (σ.line + σ.i) ≠ 0 := fun hzero ↦ absurd (h.head.symm.trans hzero) (by decide)
  rw [runLoop_succ]
  exact (if_neg hne).trans (if_pos h.head)

theorem Standing.runLoop_other {b : Byte} (h : Standing n σ acc (b :: rest)) (hb : b ≠ 0x0a)
    (hnul : b ≠ 0) (fuel : ℕ) :
    runLoop exec (fuel + 1) σ = runLoop exec fuel ((σ.read σ.i).read σ.i).next := by
  rw [← h.head] at hb hnul
  rw [runLoop_succ]
  exact (if_neg hnul).trans (if_neg hb)

/-- The loop passes what `linesPassed` says. -/
theorem Standing.passes (h : Standing n σ acc rest) (hkeep : KeepsSource exec n)
    (hnul : 0 ∉ acc ++ rest) : Passes exec n σ (linesPassed acc rest) := by
  fun_induction linesPassed acc rest generalizing σ with
  | case1 acc =>
    rw [List.append_nil] at hnul
    obtain ⟨hpassed, hreads⟩ := @Standing.runTail exec _ _ _ h.read hnul
    refine ⟨1, σ.read σ.i, ?_, hpassed, hreads⟩
    exact if_pos h.nul
  | case2 acc =>
    obtain ⟨hcut, -⟩ := h.read.read.cut hkeep fun hmem ↦ hnul (List.mem_append_left _ hmem)
    intro fuel τ hrun
    cases fuel with
    | zero => exact absurd hrun nofun
    | succ fuel =>
      rw [h.runLoop_newline] at hrun
      -- `line` stands at the NUL, and the next byte that is read is the one behind it
      have hend := mem_reads_of_runLoop hrun
      have hline : (((σ.read σ.i).read σ.i).cut exec).line = n := hcut.length
      rw [← hline]
      exact hend
  | case3 acc c rest ih =>
    obtain ⟨hcut, hpassed⟩ := h.read.read.cut hkeep fun hmem ↦ hnul (List.mem_append_left _ hmem)
    refine Passes.step (h.runLoop_newline) hpassed (ih hcut.next fun hmem ↦ hnul ?_)
    exact List.mem_append_right _ (List.mem_cons_of_mem _ hmem)
  | case4 acc b rest hb ih =>
    have hne : b ≠ 0 := fun hzero ↦
      hnul (List.mem_append_right _ (hzero ▸ List.mem_cons_self))
    have hrest := ih h.read.read.next (by rwa [List.append_assoc, List.singleton_append])
    have hstep := hrest.step (h.runLoop_other hb hne) (List.append_nil _).symm
    simpa only [List.nil_append, Option.map_id'] using hstep

end Loop

/-! ### `Run` -/

section Claim

variable {exec : CStr → (ℕ → Byte) → ℕ → Byte} {alloc : ℕ → Bool} {s : FsState}
  {held : Finset ℕ} {name data : CStr}

end Claim

end NoOsKernel.Fs
