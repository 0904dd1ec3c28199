import NoOsKernel.Fs.Session

/-!
# Shell operations on the filesystem

The callers of NO_OSFS that decide when the cluster bitmap reaches the disk: `SaveFile` and
`DeleteFile` (`kernel/noc/vm.c`), the interaction log (`kernel/noc/interact.c`) and the versioned
corpus (`kernel/noc/corpus.c`). Inodes and directory blocks are written through at once; the bitmap
is flushed at the end of an operation that succeeds.
-/

set_option autoImplicit false
set_option relaxedAutoImplicit false

namespace NoOsKernel.Fs

open Lib

/-! ### Text -/

/-- The bytes of a text. -/
def ascii (t : String) : CStr := t.toList.map fun c ↦ BitVec.ofNat 8 c.toNat

/-- The decimal digits of a number, as `%u` and `%llu` print them. -/
def decimal (v : ℕ) : CStr := (Nat.toDigits 10 v).map fun c ↦ BitVec.ofNat 8 c.toNat

theorem digit_of_mem_decimal {v : ℕ} {b : Byte} (h : b ∈ decimal v) :
    0x30 ≤ b.toNat ∧ b.toNat ≤ 0x39 := by
  obtain ⟨c, hc, rfl⟩ := List.mem_map.mp h
  have hdigit := Nat.isDigit_of_mem_toDigits (by decide) (by decide) hc
  rw [Char.isDigit_iff_toNat] at hdigit
  change 48 ≤ c.toNat ∧ c.toNat ≤ 57 at hdigit
  rw [BitVec.toNat_ofNat, Nat.mod_eq_of_lt (by omega)]
  exact hdigit

theorem length_decimal_pos (v : ℕ) : 0 < (decimal v).length := by
  rw [decimal, List.length_map]
  exact Nat.length_toDigits_pos

theorem length_decimal_le_iff {v k : ℕ} (hk : 0 < k) : (decimal v).length ≤ k ↔ v < 10 ^ k := by
  rw [decimal, List.length_map]
  exact Nat.length_toDigits_le_iff (by decide) hk

/-- `sprintk` into a buffer of `cap` bytes keeps `cap - 1` characters. -/
def sprintk (cap : ℕ) (t : CStr) : CStr := t.take (cap - 1)

/-- What a builtin leaves in `*ret` and on the screen. -/
structure Reply where
  ret : BitVec 64
  out : CStr

/-! ### `SaveFile` and `DeleteFile` -/

/-- The part of `b_SaveFile` after an old file of the name is gone: create, write, flush. -/
def saveNew (ticks : ℕ → ℕ) (s : FsState) (name data : CStr) : Reply × FsState :=
  let (ino, s) := fsCreate s name fsInodeReg (ticks 0)
  if ino < 0 then (⟨-1, ascii "fs: create failed\n"⟩, s)
  else
    match fsWriteFile s ino.toNat (fun k ↦ data.getD k 0) data.length (ticks 1) with
    | (false, s) => (⟨-1, ascii "fs: write failed\n"⟩, s)
    | (true, s) =>
      (⟨0, sprintk 64 (ascii "fs: saved " ++ name ++ ascii " (" ++
        decimal (data.length % 2 ^ 32) ++ ascii " bytes)\n")⟩, fsSyncBitmap s)

/-- `b_SaveFile`; `stale` is the value `*ret` has when the builtin leaves it alone. -/
def bSaveFile (ticks : ℕ → ℕ) (stale : BitVec 64) (s : FsState) (name data : CStr) :
    Reply × FsState :=
  if fsLookup s name ≥ 0 then
    match fsUnlink s name with
    | (false, s) => (⟨stale, ascii "fs: unlink failed\n"⟩, s)
    | (true, s) => saveNew ticks s name data
  else saveNew ticks s name data

/-- `b_DeleteFile`. -/
def bDeleteFile (s : FsState) (name : CStr) : Reply × FsState :=
  match fsUnlink s name with
  | (false, s) => (⟨-1, ascii "fs: not found\n"⟩, s)
  | (true, s) => (⟨0, ascii "fs: deleted\n"⟩, fsSyncBitmap s)

/-! ### Files that are created on first use -/

/-- `corp_write`, and the tail of `il_save`: look the file up, create it if it is missing, write it
and flush. The flags say whether the inode was found or created and whether the write succeeded. -/
def corpWrite (ticks : ℕ → ℕ) (s : FsState) (name content : CStr) : Bool × Bool × FsState :=
  let found := fsLookup s name
  let (ino, s) := if found < 0 then fsCreate s name fsInodeReg (ticks 0) else (found, s)
  if ino < 0 then (false, false, s)
  else
    match fsWriteFile s ino.toNat (fun k ↦ content.getD k 0) content.length (ticks 1) with
    | (false, s) => (true, false, s)
    | (true, s) => (true, true, fsSyncBitmap s)

/-- `IL_FILE_MAX`. -/
def ilFileMax : ℕ := 4096

/-- The part of the log ring `il_save` stores: the last 4096 bytes, cut to a record boundary when
there are more. -/
def ilWindow (ring : CStr) : CStr :=
  let off := ring.length - min ring.length ilFileMax
  if ring.length > ilFileMax then
    match (ring.drop off).findIdx? (· = 0x0a) with
    | some i => ring.drop (off + i + 1)
    | none => ring.drop off
  else ring.drop off

/-- `il_save` of a ring with the given contents. -/
def ilSave (ticks : ℕ → ℕ) (s : FsState) (ring : CStr) : CStr × FsState :=
  if (ilWindow ring).length = 0 then (ascii "log: nothing to save\n", s)
  else
    match corpWrite ticks s (ascii "interact.log") (ilWindow ring) with
    | (false, _, s) => (ascii "log: save failed (create)\n", s)
    | (true, false, s) => (ascii "log: save failed (write)\n", s)
    | (true, true, s) =>
      (sprintk 80 (ascii "log: saved interact.log (" ++ decimal (ilWindow ring).length ++
        ascii " bytes)\n"), s)

/-! ### The corpus -/

/-- `CORP_BUF_MAX`. -/
def corpBufMax : ℕ := 4096

/-- `corp_name`. -/
def corpName (seq : ℕ) : CStr :=
  ascii "corp" ++ [3, 2, 1, 0].map (fun i ↦ BitVec.ofNat 8 (0x30 + seq / 10 ^ i % 10)) ++
    ascii ".noc"

/-- `fs_read_file` into a buffer with the given contents: the bytes of the file's blocks, up to the
first absent block. The returned count is the file's size, at most `max`. -/
def fsReadFile (s : FsState) (ino : ℕ) (buf : ℕ → Byte) (max : ℕ) : ℕ × (ℕ → Byte) :=
  let i := readInode s ino
  let present := (List.range fsMaxBlocks).takeWhile fun j ↦ i.block j ≠ 0
  let blocks := present.takeWhile fun j ↦ (fsClusterRead s (i.block j)).isSome
  let want := min i.size max
  let got := if blocks = present then want else min want (blocks.length * fsBlockSize)
  (got, fun k ↦
    if k < min want (blocks.length * fsBlockSize) then
      (s.cluster (i.block (k / fsBlockSize))).get (k % fsBlockSize)
    else buf k)

/-- The number at the start of a text, in `u32` arithmetic. -/
def parseU32 (t : CStr) : ℕ :=
  (t.takeWhile fun b ↦ 0x30 ≤ b.toNat ∧ b.toNat ≤ 0x39).foldl
    (fun v b ↦ (v * 10 + (b.toNat - 0x30)) % 2 ^ 32) 0

/-- `corp_read_seq`; `stack` is what the 32-byte buffer holds before the read. -/
def corpReadSeq (stack : ℕ → Byte) (s : FsState) (name : CStr) : ℕ :=
  let ino := fsLookup s name
  if ino < 0 then 0
  else
    let size := (readInode s ino.toNat).size
    if size = 0 ∨ size > 32 then 0
    else
      let (n, buf) := fsReadFile s ino.toNat stack size
      parseU32 ((List.range n).map buf)

/-- `corp_write_seq`: a failed write is not reported, and the bitmap is flushed all the same. -/
def corpWriteSeq (ticks : ℕ → ℕ) (s : FsState) (seq : ℕ) : FsState :=
  let found := fsLookup s (ascii "corpus.seq")
  let (ino, s) :=
    if found < 0 then fsCreate s (ascii "corpus.seq") fsInodeReg (ticks 0) else (found, s)
  if ino < 0 then s
  else
    let digits := decimal seq
    fsSyncBitmap (fsWriteFile s ino.toNat (fun k ↦ digits.getD k 0) digits.length (ticks 1)).2

/-- `corp_build`: five metadata lines and the program, as much as fits the buffer. -/
def corpBuild (now seq parent : ℕ) (seed prog : CStr) : CStr :=
  sprintk corpBufMax (ascii "@@ GENERATED: " ++ decimal now ++ ascii "\n" ++
    ascii "@@ PROMPT: " ++ seed ++ ascii "\n" ++ ascii "@@ SCORE: 1.0\n" ++
    ascii "@@ PARENT: " ++ decimal parent ++ ascii "\n" ++
    ascii "@@ SEQ: " ++ decimal seq ++ ascii "\n" ++ prog)

/-- The version number `corpus_commit` gives the next program. -/
def corpSeq (stack : ℕ → Byte) (s : FsState) : ℕ :=
  let seq := corpReadSeq stack s (ascii "corpus.seq")
  if seq = 0 then 1 else seq

/-- The contents `corpus_commit` stores. -/
def corpContent (now : ℕ) (stack : ℕ → Byte) (s : FsState) (seed prog : CStr) : CStr :=
  let seq := corpSeq stack s
  corpBuild now seq (if seq > 1 then seq - 1 else 0) seed prog

/-- `corpus_commit`. -/
def corpusCommit (ticks : ℕ → ℕ) (stack : ℕ → Byte) (s : FsState) (prog seed : CStr) :
    CStr × FsState :=
  if prog = [] then ([], s)
  else
    let seq := corpSeq stack s
    let content := corpContent (ticks 0) stack s seed prog
    if content.length = 0 then ([], s)
    else
      match corpWrite (fun k ↦ ticks (k + 1)) s (corpName seq) content with
      | (_, false, s) => ([], s)
      | (_, true, s) =>
        match corpWrite (fun k ↦ ticks (k + 3)) s (ascii "last_known_good.noc") content with
        | (_, false, s) => ([], s)
        | (_, true, s) =>
          (sprintk 96 (ascii "corpus: saved " ++ corpName seq ++ ascii " (seq " ++ decimal seq ++
            ascii ")\n"), corpWriteSeq (fun k ↦ ticks (k + 5)) s ((seq + 1) % 2 ^ 32))

end NoOsKernel.Fs
