import NoOsKernel.Fs.CorpusCommit

/-!
# Rolling back to the last known good program

`corpus_rollback` finds the program behind the first five lines of `last_known_good.noc`. The second of
these lines holds the seed as it is, so that the program is found where it begins exactly if the seed
has no newline (`rollback_recovers_iff`).
-/

set_option autoImplicit false
set_option relaxedAutoImplicit false

namespace NoOsKernel.Fs

open Lib

/-! ### Stripping lines -/

/-- `CORP_HDR_LINES` -/
def corpHdrLines : ℕ := 5

/-- The loop that skips lines: what stands behind that many newlines. -/
def stripLines : ℕ → CStr → Option CStr
  | 0, text => some text
  | _ + 1, [] => none
  | lines + 1, b :: text =>
    if b = 0x0a then stripLines lines text else stripLines (lines + 1) text

theorem stripLines_zero (text : CStr) : stripLines 0 text = some text := by
  cases text <;> rfl

/-- Stripping lines of a text leaves what is appended. -/
theorem stripLines_append {lines : ℕ} {text rest : CStr} (h : stripLines lines text = some rest)
    (more : CStr) : stripLines lines (text ++ more) = some (rest ++ more) := by
  induction text generalizing lines with
  | nil =>
    cases lines with
    | zero =>
      obtain rfl := Option.some.inj h
      exact stripLines_zero _
    | succ lines => exact absurd h nofun
  | cons b text ih =>
    cases lines with
    | zero =>
      obtain rfl := Option.some.inj h
      exact stripLines_zero _
    | succ lines =>
      rw [List.cons_append]
      rw [stripLines] at h ⊢
      split_ifs at h ⊢
      · exact ih h
      · exact ih h

/-- A text with enough newlines keeps the newlines behind the lines that are stripped. -/
theorem stripLines_of_count {lines : ℕ} {text : CStr} (h : lines ≤ text.count 0x0a) :
    ∃ rest, stripLines lines text = some rest ∧ rest <:+ text ∧
      rest.count 0x0a + lines = text.count 0x0a := by
  induction text generalizing lines with
  | nil =>
    obtain rfl : lines = 0 := Nat.le_zero.mp h
    exact ⟨[], rfl, List.suffix_rfl, rfl⟩
  | cons b text ih =>
    cases lines with
    | zero => exact ⟨b :: text, rfl, List.suffix_rfl, rfl⟩
    | succ lines =>
      rw [stripLines]
      by_cases hb : b = 0x0a
      · subst hb
        rw [List.count_cons_self] at h ⊢
        obtain ⟨rest, hrest, hsuffix, hcount⟩ := ih (Nat.le_of_succ_le_succ h)
        rw [if_pos rfl]
        exact ⟨rest, hrest, hsuffix.trans (List.suffix_cons _ _), by omega⟩
      · rw [List.count_cons_of_ne hb] at h ⊢
        obtain ⟨rest, hrest, hsuffix, hcount⟩ := ih h
        rw [if_neg hb]
        exact ⟨rest, hrest, hsuffix.trans (List.suffix_cons _ _), hcount⟩

/-! ### `corpus_rollback` -/

/-- What `corpus_rollback` passes to `noc_check_syntax` and to `sched_spawn`. -/
@[ext] structure Rollback where
  checked : Option CStr
  spawned : Option CStr
  deriving DecidableEq

/-- `corpus_rollback`; `stack` is what its buffer holds before the read. -/
def corpusRollback (nocCheckSyntax : CStr → Bool) (stack : ℕ → Byte) (s : FsState) : Rollback :=
  let ino := fsLookup s (ascii "last_known_good.noc")
  if ino < 0 then ⟨none, none⟩
  else
    let size := (readInode s ino.toNat).size
    if size = 0 ∨ size ≥ corpBufMax then ⟨none, none⟩
    else
      let (n, buf) := fsReadFile s ino.toNat stack size
      match stripLines corpHdrLines ((List.range n).map buf) with
      | none | some [] => ⟨none, none⟩
      | some (b :: rest) =>
        -- the buffer is passed on as a string
        let src := (b :: rest).takeWhile (· ≠ 0)
        ⟨some src, if nocCheckSyntax src then some src else none⟩

/-- A file of the name holds the bytes: `fs_stat` returns their number, `fs_read_file` the bytes. -/
def Holds (s : FsState) (nm content : CStr) : Prop :=
  ∃ ino : ℕ, fsLookup s nm = ino ∧ (readInode s ino).size = content.length ∧
    ∀ buf max, fsReadFile s ino buf max = contentOf content buf max

variable {s t u : FsState} {held : Finset ℕ} {nm content prog seed : CStr} {ticks : ℕ → ℕ}
  {stack : ℕ → Byte}

theorem ReadsAs.holds (h : FsInv s held) (hreads : ReadsAs s nm (contentOf content)) :
    Holds s nm content := by
  obtain ⟨ino, hino, hbytes⟩ := id hreads
  refine ⟨ino, hino, ?_, hbytes⟩
  have hlen := length_of_readsAs h hino hreads ((readInode s ino).size + content.length)
  omega

/-- A string read into the buffer. -/
theorem map_contentOf (content : CStr) (buf : ℕ → Byte) :
    (List.range (contentOf content buf content.length).1).map
      (contentOf content buf content.length).2 = content := by
  refine List.ext_getElem ?_ fun k hk hk' ↦ ?_
  · rw [List.length_map, List.length_range, contentOf, min_self]
  · rw [List.getElem_map, List.getElem_range, contentOf]
    dsimp only
    rw [min_self, if_pos hk', List.getD_eq_getElem?_getD, List.getElem?_eq_getElem hk',
      Option.getD_some]

/-- What is rolled back to, by the bytes of the file. -/
theorem corpusRollback_of_holds (h : Holds s (ascii "last_known_good.noc") content)
    (hlt : content.length < corpBufMax) {rest : CStr}
    (hstrip : stripLines corpHdrLines content = some rest) (hne : rest ≠ []) (hnul : 0 ∉ rest)
    (nocCheckSyntax : CStr → Bool) (stack : ℕ → Byte) :
    corpusRollback nocCheckSyntax stack s =
      ⟨some rest, if nocCheckSyntax rest then some rest else none⟩ := by
  obtain ⟨ino, hino, hsize, hbytes⟩ := h
  have hpos : content.length ≠ 0 := fun hzero ↦ by
    rw [List.length_eq_zero_iff] at hzero
    rw [hzero] at hstrip
    exact absurd hstrip nofun
  have hsmall : ¬ (content.length = 0 ∨ content.length ≥ corpBufMax) := by omega
  have hmissing : ¬ (ino : ℤ) < 0 := by omega
  rw [corpusRollback]
  dsimp only
  rw [hino, if_neg hmissing, Int.toNat_natCast, hsize, if_neg hsmall, hbytes, map_contentOf, hstrip]
  obtain ⟨b, rest, rfl⟩ := List.exists_cons_of_ne_nil hne
  have hstring : (b :: rest).takeWhile (· ≠ 0) = b :: rest := by
    rw [List.takeWhile_eq_self_iff]
    intro c hc
    exact decide_eq_true fun hzero ↦ hnul (hzero ▸ hc)
  dsimp only
  rw [hstring]

/-! ### The header -/

/-- The five metadata lines. -/
def corpHeader (now seq parent : ℕ) (seed : CStr) : CStr :=
  ascii "@@ GENERATED: " ++ decimal now ++ ascii "\n" ++ ascii "@@ PROMPT: " ++ seed ++
    ascii "\n" ++ ascii "@@ SCORE: 1.0\n" ++ ascii "@@ PARENT: " ++ decimal parent ++ ascii "\n" ++
    ascii "@@ SEQ: " ++ decimal seq ++ ascii "\n"

theorem count_newline_decimal (v : ℕ) : (decimal v).count 0x0a = 0 :=
  List.count_eq_zero.mpr fun hmem ↦ absurd (digit_of_mem_decimal hmem) (by decide)

theorem zero_notMem_decimal (v : ℕ) : 0 ∉ decimal v := fun hmem ↦
  absurd (digit_of_mem_decimal hmem) (by decide)

theorem count_newline_corpHeader (now seq parent : ℕ) (seed : CStr) :
    (corpHeader now seq parent seed).count 0x0a = seed.count 0x0a + corpHdrLines := by
  have hgenerated : (ascii "@@ GENERATED: ").count 0x0a = 0 := by decide
  have hprompt : (ascii "@@ PROMPT: ").count 0x0a = 0 := by decide
  have hscore : (ascii "@@ SCORE: 1.0\n").count 0x0a = 1 := by decide
  have hparent : (ascii "@@ PARENT: ").count 0x0a = 0 := by decide
  have hseq : (ascii "@@ SEQ: ").count 0x0a = 0 := by decide
  have hline : (ascii "\n").count 0x0a = 1 := by decide
  simp only [corpHeader, List.count_append, count_newline_decimal, hgenerated, hprompt, hscore,
    hparent, hseq, hline, corpHdrLines]
  omega

theorem zero_notMem_corpHeader (hseed : 0 ∉ seed) (now seq parent : ℕ) :
    0 ∉ corpHeader now seq parent seed := by
  have hgenerated : 0 ∉ ascii "@@ GENERATED: " := by decide
  have hprompt : 0 ∉ ascii "@@ PROMPT: " := by decide
  have hscore : 0 ∉ ascii "@@ SCORE: 1.0\n" := by decide
  have hparent : 0 ∉ ascii "@@ PARENT: " := by decide
  have hseq : 0 ∉ ascii "@@ SEQ: " := by decide
  have hline : 0 ∉ ascii "\n" := by decide
  simp only [corpHeader, List.mem_append, hgenerated, hprompt, hscore, hparent, hseq, hline, hseed,
    zero_notMem_decimal, or_self, not_false_eq_true]

/-- The texts and the numbers of the header take 102 bytes at most. -/
theorem length_corpHeader_le {now seq parent : ℕ} (hnow : now < 2 ^ 64) (hseq : seq < 2 ^ 32)
    (hparent : parent < 2 ^ 32) (seed : CStr) :
    (corpHeader now seq parent seed).length ≤ seed.length + 102 := by
  have hnow' := (length_decimal_le_iff (k := 20) (by decide)).mpr (hnow.trans (by decide))
  have hseq' := (length_decimal_le_iff (k := 10) (by decide)).mpr (hseq.trans (by decide))
  have hparent' := (length_decimal_le_iff (k := 10) (by decide)).mpr (hparent.trans (by decide))
  have hgenerated : (ascii "@@ GENERATED: ").length = 14 := by decide
  have hprompt : (ascii "@@ PROMPT: ").length = 11 := by decide
  have hscore : (ascii "@@ SCORE: 1.0\n").length = 14 := by decide
  have hpar : (ascii "@@ PARENT: ").length = 11 := by decide
  have hsq : (ascii "@@ SEQ: ").length = 8 := by decide
  have hline : (ascii "\n").length = 1 := by decide
  simp only [corpHeader, List.length_append, hgenerated, hprompt, hscore, hpar, hsq, hline]
  omega

/-- What stripping five lines leaves of the header: nothing if the seed has no newline. -/
theorem stripLines_corpHeader (now seq parent : ℕ) (seed : CStr) :
    ∃ rest, stripLines corpHdrLines (corpHeader now seq parent seed) = some rest ∧
      rest <:+ corpHeader now seq parent seed ∧ (rest = [] ↔ 0x0a ∉ seed) := by
  have hcount := count_newline_corpHeader now seq parent seed
  obtain ⟨rest, hrest, hsuffix, hnewlines⟩ := stripLines_of_count
    (by omega : corpHdrLines ≤ (corpHeader now seq parent seed).count 0x0a)
  refine ⟨rest, hrest, hsuffix, ?_⟩
  rw [← List.count_eq_zero]
  constructor
  · rintro rfl
    rw [List.count_nil] at hnewlines
    omega
  · intro hseed
    -- the header ends with a newline, so that a rest without one is empty
    have hnone : 0x0a ∉ rest := List.count_eq_zero.mp (by omega)
    rw [corpHeader] at hsuffix
    rcases List.suffix_concat_iff.mp hsuffix with hnil | ⟨init, rfl, -⟩
    · exact hnil
    · exact absurd (List.mem_append_right init (List.mem_singleton_self _)) hnone

/-! ### What is rolled back to -/

/-- A commit that reports the version it saved has stored the last known good program. -/
theorem lkg_of_saved (h : FsInv s held) (hsaved : (corpusCommit ticks stack s prog seed).1 ≠ []) :
    Holds (corpusCommit ticks stack s prog seed).2 (ascii "last_known_good.noc")
      (corpContent (ticks 0) stack s seed prog) := by
  have hprog : prog ≠ [] := by
    rintro rfl
    exact hsaved rfl
  have hexit := corpusCommit_exit h hprog ticks stack seed
  revert hexit hsaved
  generalize (corpusCommit ticks stack s prog seed).1 = out,
    (corpusCommit ticks stack s prog seed).2 = v
  intro hsaved hexit
  cases hexit with
  | noVersion => exact absurd rfl hsaved
  | noLkg => exact absurd rfl hsaved
  | saved _ h' hseq =>
    have hother : ascii "last_known_good.noc" ≠ ascii "corpus.seq" := by decide
    rcases hseq with hseq | hseq
    · exact (h'.reads.congr (hseq.others _ hother).1).holds hseq.inv
    · exact (h'.reads.congr (hseq.others _ hother)).holds hseq.inv

/-- Programs and seeds of these lengths are stored whole. -/
theorem corpContent_eq (hprog : prog.length ≤ 191) (hseed : seed.length ≤ 190) {now : ℕ}
    (hnow : now < 2 ^ 64) (stack : ℕ → Byte) (s : FsState) : ∃ parent,
      corpContent now stack s seed prog =
        corpHeader now (corpSeq stack s) parent seed ++ prog ∧
      (corpHeader now (corpSeq stack s) parent seed ++ prog).length < corpBufMax := by
  have hseq := corpSeq_lt stack s
  have hparent : (if corpSeq stack s > 1 then corpSeq stack s - 1 else 0) < 2 ^ 32 := by
    split_ifs
    · omega
    · decide
  have hle := length_corpHeader_le hnow hseq hparent seed
  have hlen : (corpHeader now (corpSeq stack s)
      (if corpSeq stack s > 1 then corpSeq stack s - 1 else 0) seed ++ prog).length <
      corpBufMax := by
    rw [List.length_append]
    unfold corpBufMax
    omega
  refine ⟨_, ?_, hlen⟩
  change sprintk corpBufMax (corpHeader now (corpSeq stack s) _ seed ++ prog) = _
  exact List.take_of_length_le (Nat.le_sub_one_of_lt hlen)

/-- Rolling back to the last known good program, in any state that holds what a commit stored. -/
theorem rollback_of_holds (hne : prog ≠ []) (hprog : prog.length ≤ 191) (hseed : seed.length ≤ 190)
    (hprogNul : 0 ∉ prog) (hseedNul : 0 ∉ seed) (hticks : ticks 0 < 2 ^ 64)
    (hholds : Holds u (ascii "last_known_good.noc") (corpContent (ticks 0) stack s seed prog))
    (nocCheckSyntax : CStr → Bool) (stack' : ℕ → Byte) :
    corpusRollback nocCheckSyntax stack' u =
        ⟨some prog, if nocCheckSyntax prog then some prog else none⟩ ↔ 0x0a ∉ seed := by
  obtain ⟨parent, hcontent, hlt⟩ := corpContent_eq hprog hseed hticks stack s
  obtain ⟨rest, hstrip, hsuffix, hrest⟩ :=
    stripLines_corpHeader (ticks 0) (corpSeq stack s) parent seed
  have hnul : 0 ∉ rest ++ prog := by
    rw [List.mem_append, not_or]
    exact ⟨fun hmem ↦ zero_notMem_corpHeader hseedNul _ _ _ (hsuffix.subset hmem), hprogNul⟩
  rw [hcontent] at hholds
  rw [corpusRollback_of_holds hholds hlt (stripLines_append hstrip prog)
    (List.append_ne_nil_of_right_ne_nil rest hne) hnul, ← hrest]
  constructor
  · intro heq
    have hsrc := Option.some.inj (congrArg Rollback.checked heq)
    exact List.append_left_eq_self.mp hsrc
  · rintro rfl
    rfl

section Claim

variable {kmalloc kmalloc' : ℕ → Bool} {d : Drive} {s₀ : FsState} {σ : Session}

/-- After a commit that reports what it saved, and while the file it stored is kept, a rollback passes
on exactly the program of the commit if and only if the seed has no newline. -/
theorem rollback_recovers_iff (hcovers : BitmapCovers d)
    (hformat : (fsFormat kmalloc d s₀).1 = true)
    (hmount : (fsMount kmalloc' (fsFormat kmalloc d s₀).2).1 = true)
    (hrun : Run Session.step InSession (freshSession kmalloc kmalloc' d s₀) σ)
    (hprog : prog.length ≤ 191) (hseed : seed.length ≤ 190) (hprogNul : 0 ∉ prog)
    (hseedNul : 0 ∉ seed) (hticks : ticks 0 < 2 ^ 64)
    (hsaved : (corpusCommit ticks stack σ.fs prog seed).1 ≠ [])
    (hkept : ∀ content,
      Holds (corpusCommit ticks stack σ.fs prog seed).2 (ascii "last_known_good.noc") content →
        Holds u (ascii "last_known_good.noc") content)
    (nocCheckSyntax : CStr → Bool) (stack' : ℕ → Byte) :
    corpusRollback nocCheckSyntax stack' u =
        ⟨some prog, if nocCheckSyntax prog then some prog else none⟩ ↔ 0x0a ∉ seed := by
  have h := FsInv.run hcovers hformat hmount hrun
  have hne : prog ≠ [] := by
    rintro rfl
    exact hsaved rfl
  exact rollback_of_holds hne hprog hseed hprogNul hseedNul hticks
    (hkept _ (lkg_of_saved h hsaved)) nocCheckSyntax stack'

end Claim

/-- The first commit on the small drive, of `1;` for the seed `1`. -/
theorem rollback_recovers_iff_first :
    corpusRollback (fun _ ↦ true) (fun _ ↦ 0)
        (corpusCommit (fun _ ↦ 0) (fun _ ↦ 0) smallSession.fs [0x31, 0x3b] [0x31]).2 =
      ⟨some [0x31, 0x3b], if true then some [0x31, 0x3b] else none⟩ ↔ 0x0a ∉ [(0x31 : Byte)] :=
  @rollback_recovers_iff _ [0x31, 0x3b] [0x31] (fun _ ↦ 0) (fun _ ↦ 0) (fun _ ↦ true)
    (fun _ ↦ true) smallDrive blankDisk smallSession smallDrive_covers smallDrive_formats
    smallDrive_mounts Run.refl (by decide) (by decide) (by decide) (by decide) (by decide)
    (by decide +kernel) (fun _ h ↦ h) (fun _ ↦ true) (fun _ ↦ 0)

/-- The seed `1;` with a newline, and the program that is this seed: the rollback also passes on the last
line of the header. -/
theorem rollback_fails_on_newline :
    (corpusCommit (fun _ ↦ 0) (fun _ ↦ 0) smallSession.fs [0x31, 0x3b, 0x0a]
        [0x31, 0x3b, 0x0a]).1 ≠ [] ∧
      corpusRollback (fun _ ↦ true) (fun _ ↦ 0)
          (corpusCommit (fun _ ↦ 0) (fun _ ↦ 0) smallSession.fs [0x31, 0x3b, 0x0a]
            [0x31, 0x3b, 0x0a]).2 =
        ⟨some (ascii "@@ SEQ: 1\n1;\n"), some (ascii "@@ SEQ: 1\n1;\n")⟩ ∧
      ascii "@@ SEQ: 1\n1;\n" ≠ [0x31, 0x3b, 0x0a] := by
  decide +kernel

end NoOsKernel.Fs
