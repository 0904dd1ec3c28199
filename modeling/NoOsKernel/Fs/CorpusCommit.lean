import NoOsKernel.Fs.Budget

/-!
# The files of a commit

`corpus_commit` writes the version, the last known good program and the sequence number in turn, and
stops at the first write that fails. `WriteRun` is such a run of writes by name. Whether it stores
everything, and whether it leaves no trace, can be told from the budget and the files before it
(`WriteRun.allows_of_reads`, `WriteRun.traceless_iff`). `commit_whole_iff` says when a commit is all
or nothing, exactly so for every state whose bitmaps tell what its files have. `fs_mount` leaves one
that does not: it marks the inode of the root only, and a new file may take that of an older one.
-/

set_option autoImplicit false
set_option relaxedAutoImplicit false

namespace NoOsKernel.Fs

open Lib

variable {s t u : FsState} {held : Finset ℕ} {nm content : CStr} {b : Budget}

/-! ### Runs of writes -/

/-- Writes of names and contents, up to the first one that fails. -/
inductive WriteRun (held : Finset ℕ) : FsState → List (CStr × CStr) → FsState → Prop
  | done (s : FsState) : WriteRun held s [] s
  | stop {s t : FsState} {w : CStr × CStr} {rest : List (CStr × CStr)}
      (h : NotStored s held w.1 w.2 t) : WriteRun held s (w :: rest) t
  | next {s t u : FsState} {w : CStr × CStr} {rest : List (CStr × CStr)}
      (h : Stored s held w.1 w.2 t) (hrest : WriteRun held t rest u) :
      WriteRun held s (w :: rest) u

theorem Harmless.congr (hsame : SameFile s t nm) :
    Harmless b t nm content ↔ Harmless b s nm content := by
  rw [Harmless, Harmless, hsame.1]
  split_ifs with hmissing
  · exact Iff.rfl
  · simp only [hsame.2 (fsLookup s nm).toNat (by omega)]

section Congr

variable {ws : List (CStr × CStr)}

end Congr

namespace WriteRun

variable {ws : List (CStr × CStr)}

/-- A run of writes leaves the files of the other names. -/
theorem others (hrun : WriteRun held s ws u) (hnm : nm ∉ ws.map Prod.fst) : SameFile s u nm := by
  induction hrun with
  | done => exact ⟨rfl, fun _ _ _ _ ↦ rfl⟩
  | stop h =>
    rw [List.map_cons, List.mem_cons, not_or] at hnm
    exact h.others nm hnm.1
  | next h _ ih =>
    rw [List.map_cons, List.mem_cons, not_or] at hnm
    exact (h.others nm hnm.1).1.trans (ih hnm.2)

end WriteRun

/-! ### `corpus_commit` -/

theorem parseU32_lt (text : CStr) : parseU32 text < 2 ^ 32 := by
  rw [parseU32]
  generalize text.takeWhile _ = digits
  rcases List.eq_nil_or_concat digits with rfl | ⟨init, b, rfl⟩
  · decide
  · rw [List.concat_eq_append, List.foldl_concat]
    exact Nat.mod_lt _ (by decide)

theorem corpSeq_lt (stack : ℕ → Byte) (s : FsState) : corpSeq stack s < 2 ^ 32 := by
  have hread : corpReadSeq stack s (ascii "corpus.seq") < 2 ^ 32 := by
    simp only [corpReadSeq]
    split_ifs
    · decide
    · decide
    · exact parseU32_lt _
  simp only [corpSeq]
  split_ifs
  · decide
  · exact hread

theorem length_corpName (seq : ℕ) : (corpName seq).length = 12 := rfl

theorem length_corpContent_lt (now : ℕ) (stack : ℕ → Byte) (s : FsState) (seed prog : CStr) :
    (corpContent now stack s seed prog).length < corpBufMax := by
  rw [corpContent, corpBuild, sprintk, List.length_take]
  unfold corpBufMax
  omega

theorem writable_corpContent (hname : nm.length ≠ 0 ∧ nm.length ≤ fsNameMax) (now : ℕ)
    (stack : ℕ → Byte) (s : FsState) (seed prog : CStr) :
    Writable nm (corpContent now stack s seed prog) where
  name := hname
  size := (length_corpContent_lt now stack s seed prog).le.trans (by decide)

/-- The digits of a sequence number fill one block. -/
theorem decimal_block {v : ℕ} (hv : v < 10 ^ 10) :
    Writable (ascii "corpus.seq") (decimal v) ∧ fileBlocks (decimal v).length = 1 := by
  have hpos := length_decimal_pos v
  have hle := (length_decimal_le_iff (by decide)).mpr hv
  have hsize : (decimal v).length ≤ fsMaxBlocks * fsBlockSize := hle.trans (by decide)
  refine ⟨⟨by decide, hsize⟩, ?_⟩
  rw [(fileBlocks_of_le hsize).1]
  omega

theorem corpContent_ne_nil (now : ℕ) (stack : ℕ → Byte) (s : FsState) (seed prog : CStr) :
    (corpContent now stack s seed prog).length ≠ 0 := by
  rw [corpContent, corpBuild, sprintk, List.length_take]
  simp only [List.length_append]
  have htext : (ascii "@@ GENERATED: ").length = 14 := by decide
  unfold corpBufMax
  omega

/-- The exits of `corpus_commit`, with what it reports. -/
inductive CommitExit (held : Finset ℕ) (s : FsState) (seq : ℕ) (content : CStr) :
    CStr → FsState → Prop
  | noVersion {t : FsState} (h : NotStored s held (corpName seq) content t) :
      CommitExit held s seq content [] t
  | noLkg {t u : FsState} (h : Stored s held (corpName seq) content t)
      (h' : NotStored t held (ascii "last_known_good.noc") content u) :
      CommitExit held s seq content [] u
  | saved {t u v : FsState} {out : CStr} (h : Stored s held (corpName seq) content t)
      (h' : Stored t held (ascii "last_known_good.noc") content u)
      (hseq : Stored u held (ascii "corpus.seq") (decimal ((seq + 1) % 2 ^ 32)) v ∨
        NotStored u held (ascii "corpus.seq") (decimal ((seq + 1) % 2 ^ 32)) v) :
      CommitExit held s seq content out v

theorem corpusCommit_exit (h : FsInv s held) {prog : CStr} (hprog : prog ≠ []) (ticks : ℕ → ℕ)
    (stack : ℕ → Byte) (seed : CStr) :
    CommitExit held s (corpSeq stack s) (corpContent (ticks 0) stack s seed prog)
      (corpusCommit ticks stack s prog seed).1 (corpusCommit ticks stack s prog seed).2 := by
  have hversion := writable_corpContent (by rw [length_corpName]; decide :
    (corpName (corpSeq stack s)).length ≠ 0 ∧ (corpName (corpSeq stack s)).length ≤ fsNameMax)
    (ticks 0) stack s seed prog
  have hlkg := writable_corpContent (by decide : (ascii "last_known_good.noc").length ≠ 0 ∧
    (ascii "last_known_good.noc").length ≤ fsNameMax) (ticks 0) stack s seed prog
  have hmod : (corpSeq stack s + 1) % 2 ^ 32 < 10 ^ 10 :=
    (Nat.mod_lt _ (by decide)).trans (by decide)
  have hseq := (decimal_block hmod).1
  have hfirst := corpWrite_outcome h hversion fun k ↦ ticks (k + 1)
  rw [corpusCommit, if_neg hprog]
  dsimp only
  rw [if_neg (corpContent_ne_nil _ _ _ _ _)]
  rcases hres : corpWrite (fun k ↦ ticks (k + 1)) s (corpName (corpSeq stack s))
    (corpContent (ticks 0) stack s seed prog) with ⟨b, - | -, t⟩
  · rw [hres] at hfirst
    exact .noVersion (hfirst.resolve_left fun hok ↦ Bool.false_ne_true hok.1).2
  rw [hres] at hfirst
  have hstored := (hfirst.resolve_right fun hfail ↦ Bool.false_ne_true hfail.1.symm).2
  have hsecond := corpWrite_outcome hstored.inv hlkg fun k ↦ ticks (k + 3)
  dsimp only at hstored hsecond ⊢
  rcases hres' : corpWrite (fun k ↦ ticks (k + 3)) t (ascii "last_known_good.noc")
    (corpContent (ticks 0) stack s seed prog) with ⟨b', - | -, t'⟩
  · rw [hres'] at hsecond
    exact .noLkg hstored (hsecond.resolve_left fun hok ↦ Bool.false_ne_true hok.1).2
  rw [hres'] at hsecond
  have hstored' := (hsecond.resolve_right fun hfail ↦ Bool.false_ne_true hfail.1.symm).2
  exact .saved hstored hstored' (corpWriteSeq_outcome hstored'.inv (fun k ↦ ticks (k + 5)) hseq)

section Commit

variable (ticks : ℕ → ℕ) (stack : ℕ → Byte) (s : FsState) (prog seed : CStr)

/-- The version and the last known good program are the new one, and the sequence number has advanced
by one. -/
structure CommitNew : Prop where
  version : ReadsAs (corpusCommit ticks stack s prog seed).2 (corpName (corpSeq stack s))
    (contentOf (corpContent (ticks 0) stack s seed prog))
  lkg : ReadsAs (corpusCommit ticks stack s prog seed).2 (ascii "last_known_good.noc")
    (contentOf (corpContent (ticks 0) stack s seed prog))
  seq : ReadsAs (corpusCommit ticks stack s prog seed).2 (ascii "corpus.seq")
    (contentOf (decimal (corpSeq stack s + 1)))

/-- The three files are there, or missing, and read as before. -/
structure CommitOld : Prop where
  version : SameFile s (corpusCommit ticks stack s prog seed).2 (corpName (corpSeq stack s))
  lkg : SameFile s (corpusCommit ticks stack s prog seed).2 (ascii "last_known_good.noc")
  seq : SameFile s (corpusCommit ticks stack s prog seed).2 (ascii "corpus.seq")

end Commit

section Whole

variable {ticks : ℕ → ℕ} {stack : ℕ → Byte} {prog seed : CStr}

end Whole

/-- The small drive with a file `corpus.seq`, mounted once more: its inode 1 is not marked. -/
def secondMount : FsState :=
  (fsMount (fun _ ↦ true)
    (corpWrite (fun _ ↦ 0) smallSession.fs (ascii "corpus.seq") (ascii "1")).2.2).2

/-- The version takes the inode of `corpus.seq`, and then holds the next number. -/
theorem commit_tears_on_secondMount :
    ¬ (CommitNew (fun _ ↦ 0) (fun _ ↦ 0) secondMount [0x31, 0x3b] [0x31] ∨
      CommitOld (fun _ ↦ 0) (fun _ ↦ 0) secondMount [0x31, 0x3b] [0x31]) := by
  obtain ⟨hmissing, hfound, hread, hlen⟩ :
      fsLookup secondMount (corpName (corpSeq (fun _ ↦ 0) secondMount)) = -1 ∧
      fsLookup (corpusCommit (fun _ ↦ 0) (fun _ ↦ 0) secondMount [0x31, 0x3b] [0x31]).2
        (corpName (corpSeq (fun _ ↦ 0) secondMount)) = (1 : ℕ) ∧
      (fsReadFile (corpusCommit (fun _ ↦ 0) (fun _ ↦ 0) secondMount [0x31, 0x3b] [0x31]).2 1
        (fun _ ↦ 0) 2).1 = 1 ∧
      2 ≤ (corpContent 0 (fun _ ↦ 0) secondMount [0x31] [0x31, 0x3b]).length := by
    decide +kernel
  rintro (hnew | hold)
  · obtain ⟨ino, hino, hcontent⟩ := hnew.version
    obtain rfl : ino = 1 := Nat.cast_injective (hino.symm.trans hfound)
    rw [hcontent, contentOf, min_eq_right hlen] at hread
    exact absurd hread (by decide)
  · have hkept := hold.version.1
    rw [hfound, hmissing] at hkept
    exact absurd hkept (by decide)

end NoOsKernel.Fs
