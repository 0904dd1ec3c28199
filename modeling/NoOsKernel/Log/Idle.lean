import NoOsKernel.Log.Records
import NoOsKernel.Lib.Runs

/-!
# The idle retrain trigger

Two models train on the interaction log, the byte bigrams of `kernel/noc/train.c` and the
transformer of `kernel/noc/trans.c`. Each remembers in a watermark how long the log was when it was
last trained, and its idle poll trains again once the log is 64 bytes longer than that.

`fresh` counts what the trigger is meant to count: the bytes of the records appended since the last
training run and not cleared since. The length of the log follows that count only while the log
keeps what it had at the last training run. Evicted records and `LogClear` take bytes away from
below the watermark, and the trigger stays silent until the log has grown past the old mark again.
-/

set_option autoImplicit false
set_option relaxedAutoImplicit false

namespace NoOsKernel.Log

open Lib Lib.Window Fs

/-- The two models that train on the log. -/
inductive Model
  | bigram | transformer
  deriving DecidableEq, Repr

/-- `TRAIN_BATCH`, `TRANS_BATCH` -/
def trainBatch : ℕ := 4096

/-- `TRAIN_MIN`, `TRANS_MIN` -/
def trainMin : ℕ := 4

/-- `IDLE_NEW_MIN`, `TRANS_IDLE_NEW_MIN` -/
def idleNewMin : ℕ := 64

/-- The log and the watermark of each model. -/
structure Corpus where
  log : IlState
  watermark : Model → ℕ

/-- The watermark of `m` at the current length. -/
def Corpus.mark (s : Corpus) (m : Model) : Corpus :=
  { s with watermark := Function.update s.watermark m (ilLenBytes s.log) }

/-- How many bytes of the tail a training run takes. -/
def batchBytes (s : Corpus) (maxBytes : ℕ) : ℕ :=
  let cap := if maxBytes ≠ 0 ∧ maxBytes < trainBatch then maxBytes else trainBatch
  (ilCopyTail s.log cap).length

/-- `train_run`: the bytes trained on. The watermark moves even when there is too little to train. -/
def trainRun (s : Corpus) (maxBytes : ℕ) : ℕ × Corpus :=
  let nb := batchBytes s maxBytes
  (if nb < trainMin then 0 else nb, s.mark .bigram)

/-- `trans_train`: as `trainRun`, but without memory for the buffers, or without a context, it
trains on nothing. -/
def transTrain (s : Corpus) (maxBytes ctx : ℕ) (allocated : Bool) : ℕ × Corpus :=
  let nb := batchBytes s maxBytes
  let c := if nb - 2 < ctx then nb - 2 else ctx
  (if nb < trainMin ∨ !allocated ∨ c < 1 then 0 else nb, s.mark .transformer)

/-- When the last key was pressed and how long the machine has to be idle. -/
structure IdleClock where
  lastInputTick : BitVec 64
  idleSecs : BitVec 32

/-- The poll is past the idle threshold. -/
def IdleClock.Past (clock : IdleClock) (now : BitVec 64) : Prop :=
  clock.lastInputTick ≠ 0 ∧
    ¬ now - clock.lastInputTick < clock.idleSecs.setWidth 64 * 100

instance (clock : IdleClock) (now : BitVec 64) : Decidable (clock.Past now) :=
  inferInstanceAs (Decidable (_ ∧ _))

/-- The new-bytes condition of the polls. -/
def NewBytes (s : Corpus) (m : Model) : Prop :=
  ¬ ilLenBytes s.log < s.watermark m + idleNewMin

instance (s : Corpus) (m : Model) : Decidable (NewBytes s m) :=
  inferInstanceAs (Decidable (¬ _))

/-- An idle poll: `none` when it returns without a training run. -/
def pollIdle (m : Model) (run : Corpus → ℕ × Corpus) (s : Corpus) (clock : IdleClock)
    (now : BitVec 64) : Option (ℕ × Corpus) :=
  if clock.lastInputTick = 0 then none
  else if now - clock.lastInputTick < clock.idleSecs.setWidth 64 * 100 then none
  else if ilLenBytes s.log < s.watermark m + idleNewMin then none
  else some (run s)

def trainPollIdle (s : Corpus) (clock : IdleClock) (now : BitVec 64) : Option (ℕ × Corpus) :=
  pollIdle .bigram (fun s ↦ trainRun s trainBatch) s clock now

def transPollIdle (ctx : ℕ) (allocated : Bool) (s : Corpus) (clock : IdleClock) (now : BitVec 64) :
    Option (ℕ × Corpus) :=
  pollIdle .transformer (fun s ↦ transTrain s trainBatch ctx allocated) s clock now

/-! ### Histories -/

/-- What happens to the log and the watermarks. -/
inductive Act
  | event (ev : Event)
  | clear
  | trainRun (maxBytes : ℕ)
  | transTrain (maxBytes ctx : ℕ) (allocated : Bool)

/-- The model an action trains. -/
def Act.trains : Act → Option Model
  | .event _ | .clear => none
  | .trainRun _ => some .bigram
  | .transTrain _ _ _ => some .transformer

/-- An event always returns with this fuel, see `ilAppend_spec`. -/
def step (s : Corpus) : Act → Corpus
  | .event ev => { s with log := (ev.append ilRingSize s.log).getD s.log }
  | .clear => { s with log := ilClear s.log }
  | .trainRun maxBytes => (trainRun s maxBytes).2
  | .transTrain maxBytes ctx allocated => (transTrain s maxBytes ctx allocated).2

/-- An empty log, and the watermarks as `train_init` and `trans_init` leave them. -/
def boot (ring : Mem) : Corpus := ⟨⟨ring, 0, 0⟩, fun _ ↦ 0⟩

/-- One more action, and the bytes of new records for `m`. -/
def freshStep (m : Model) (n : ℕ) (a : Act) : ℕ :=
  match a with
  | .event ev => n + total recordSize ev.records
  | .clear => 0
  | a => if a.trains = some m then 0 else n

/-- The bytes of records appended since the last training run of `m` and not cleared since. -/
def fresh (m : Model) (acts : List Act) : ℕ := acts.foldl (freshStep m) 0

/-- The step keeps the bytes the log had at the last training run of `m`: new records find room
without an eviction, and the log is cleared only if it was empty then. -/
def Keeps (m : Model) (s : Corpus) : Act → Prop
  | .event ev => s.log.len + total recordSize ev.records ≤ ilRingSize - 1
  | .clear => s.watermark m = 0
  | .trainRun _ | .transTrain _ _ _ => True

instance (m : Model) (s : Corpus) : DecidablePred (Keeps m s)
  | .event _ => inferInstanceAs (Decidable (_ ≤ _))
  | .clear => inferInstanceAs (Decidable (_ = _))
  | .trainRun _ => isTrue trivial
  | .transTrain _ _ _ => isTrue trivial

/-! ### Appending into free room -/

/-- A record that fits is stored, and nothing is evicted. -/
theorem ilAppend_of_fits {log : IlState} {r : List Byte} (hr : IsRecord r)
    (hfits : log.len + recordSize r ≤ ilRingSize - 1) (fuel : ℕ) :
    ilAppend (fuel + 1) log r = some (store log r) := by
  have hshort := hr.short
  rw [recordSize] at hfits
  have hclamp : ¬ ilRingSize ≤ r.length + 1 := by
    rw [ilRingSize] at hshort ⊢
    omega
  have hroom : evict (fuel + 1) r.length log = some log := if_neg (by omega)
  rw [ilAppend, if_neg (by simp [hr.nonempty]), if_neg hclamp]
  simp only [hroom, Option.map_some, List.take_length]

/-- Records that fit make the log longer by their size. -/
theorem len_foldlM_of_fits (fuel : ℕ) (recs : List (List Byte)) (hrecs : ∀ r ∈ recs, IsRecord r)
    {log : IlState} (hfits : log.len + total recordSize recs ≤ ilRingSize - 1) :
    ∃ log', recs.foldlM (ilAppend (fuel + 1)) log = some log' ∧
      log'.len = log.len + total recordSize recs := by
  induction recs generalizing log with
  | nil => exact ⟨log, rfl, rfl⟩
  | cons r recs ih =>
    rw [total_cons] at hfits ⊢
    have hlen : (store log r).len = log.len + recordSize r := rfl
    obtain ⟨log', hrun, hlen'⟩ := ih (fun r' hr' ↦ hrecs r' (List.mem_cons_of_mem _ hr'))
      (by rw [hlen]; omega : (store log r).len + total recordSize recs ≤ ilRingSize - 1)
    refine ⟨log', ?_, by omega⟩
    rw [List.foldlM_cons, ilAppend_of_fits (hrecs r List.mem_cons_self) (by omega)]
    exact hrun

/-! ### The trigger -/

/-- What the trigger relies on: the log has grown by the new bytes. -/
def InStep (m : Model) (s : Corpus) (n : ℕ) : Prop := ilLenBytes s.log = s.watermark m + n

theorem mark_watermark_same (s : Corpus) (m : Model) :
    (s.mark m).watermark m = ilLenBytes s.log := Function.update_self ..

theorem mark_watermark_ne (s : Corpus) {m m' : Model} (hne : m ≠ m') :
    (s.mark m').watermark m = s.watermark m := Function.update_of_ne hne ..

/-- A training run of `m` starts the count again, one of the other model leaves it alone. -/
theorem inStep_mark {m m' : Model} {s : Corpus} {n : ℕ} (hin : InStep m s n) :
    InStep m (s.mark m') (if some m' = some m then 0 else n) := by
  unfold InStep
  by_cases heq : m' = m
  · subst heq
    rw [if_pos rfl, mark_watermark_same]
    rfl
  · rw [if_neg fun h ↦ heq (Option.some.inj h), mark_watermark_ne s (Ne.symm heq)]
    exact hin

/-- An event whose records fit makes the log longer by their size. -/
theorem len_step_event {s : Corpus} {ev : Event}
    (hfits : s.log.len + total recordSize ev.records ≤ ilRingSize - 1) :
    (step s (.event ev)).log.len = s.log.len + total recordSize ev.records := by
  obtain ⟨log', hrun, hlen⟩ := len_foldlM_of_fits 65535 ev.records
    (fun r ↦ isRecord_of_mem_records) hfits
  have happend : ev.append ilRingSize s.log = some log' := by
    rw [append_eq_foldlM]
    exact hrun
  simp only [step, happend, Option.getD_some, hlen]

/-- A step that keeps the old bytes keeps the length in step with the count. -/
theorem inStep_step {m : Model} {s : Corpus} {n : ℕ} {a : Act} (hin : InStep m s n)
    (hkeeps : Keeps m s a) : InStep m (step s a) (freshStep m n a) := by
  cases a with
  | event ev =>
    change (step s (.event ev)).log.len = s.watermark m + (n + total recordSize ev.records)
    rw [len_step_event hkeeps, show s.log.len = s.watermark m + n from hin, Nat.add_assoc]
  | clear => exact hkeeps.symm
  | trainRun maxBytes => exact inStep_mark hin
  | transTrain maxBytes ctx allocated => exact inStep_mark hin

/-- In a run of steps that keep the old bytes the length follows the count. -/
theorem inStep_foldl {m : Model} (acts : List Act) {s : Corpus} {n : ℕ} (hin : InStep m s n)
    (hkeeps : Admits step (Keeps m) s acts) :
    InStep m (acts.foldl step s) (acts.foldl (freshStep m) n) := by
  induction acts generalizing s n with
  | nil => exact hin
  | cons a acts ih => exact ih (inStep_step hin hkeeps.1) hkeeps.2

/-- A training run of `m` was the last thing that happened, or nothing has. -/
def JustTrained (m : Model) (past : List Act) : Prop :=
  past = [] ∨ ∃ before a, past = before ++ [a] ∧ a.trains = some m

theorem inStep_of_justTrained {m : Model} {past : List Act} (hpast : JustTrained m past)
    (ring : Mem) : InStep m (past.foldl step (boot ring)) (fresh m past) := by
  obtain rfl | ⟨before, a, rfl, ha⟩ := hpast
  · rfl
  · rw [fresh, List.foldl_append, List.foldl_append]
    generalize before.foldl step (boot ring) = s
    generalize before.foldl (freshStep m) 0 = n
    cases a with
    | event ev => cases ha
    | clear => cases ha
    | trainRun maxBytes =>
      cases ha
      exact (mark_watermark_same s .bigram).symm
    | transTrain maxBytes ctx allocated =>
      cases ha
      exact (mark_watermark_same s .transformer).symm

/-- The poll trains when its conditions are met. -/
theorem pollIdle_eq_some {m : Model} {s : Corpus} {clock : IdleClock} {now : BitVec 64}
    (hpast : clock.Past now) (hnew : NewBytes s m) (run : Corpus → ℕ × Corpus) :
    pollIdle m run s clock now = some (run s) := by
  rw [pollIdle, if_neg hpast.1, if_neg hpast.2, if_neg hnew]

/-- An idle poll takes a batch of at least 64 bytes. -/
theorem idleNewMin_le_batchBytes {m : Model} {s : Corpus} (hnew : NewBytes s m) :
    idleNewMin ≤ batchBytes s trainBatch := by
  have hlen : idleNewMin ≤ s.log.len := by
    rw [NewBytes, ilLenBytes] at hnew
    omega
  have hcap : ¬ (trainBatch ≠ 0 ∧ trainBatch < trainBatch) := by decide
  simp only [batchBytes, if_neg hcap]
  rw [ilCopyTail_eq, List.length_drop, length_bytes, trainBatch]
  rw [idleNewMin] at hlen ⊢
  omega

/-- The idle poll of `m` starts a training run, and the run trains on something; the transformer
needs memory for its buffers and a context to do so. -/
def PollTrains (m : Model) (s : Corpus) (clock : IdleClock) (now : BitVec 64) : Prop :=
  match m with
  | .bigram => trainPollIdle s clock now = some (trainRun s trainBatch) ∧
      0 < (trainRun s trainBatch).1
  | .transformer => ∀ ctx allocated,
      transPollIdle ctx allocated s clock now = some (transTrain s trainBatch ctx allocated) ∧
        (0 < ctx → allocated → 0 < (transTrain s trainBatch ctx allocated).1)

theorem pollTrains_of_newBytes {m : Model} {s : Corpus} {clock : IdleClock} {now : BitVec 64}
    (hpast : clock.Past now) (hnew : NewBytes s m) : PollTrains m s clock now := by
  have hbatch := idleNewMin_le_batchBytes hnew
  rw [idleNewMin] at hbatch
  have hmin : ¬ batchBytes s trainBatch < trainMin := by
    rw [trainMin]
    omega
  cases m with
  | bigram =>
    refine ⟨pollIdle_eq_some hpast hnew _, ?_⟩
    simp only [trainRun, if_neg hmin]
    omega
  | transformer =>
    intro ctx allocated
    refine ⟨pollIdle_eq_some hpast hnew _, fun hctx halloc ↦ ?_⟩
    simp only [transTrain, halloc, hmin, false_or, Bool.not_true, Bool.false_eq_true]
    split_ifs <;> omega

/-- In every history whose steps since the last training run of `m` keep the old bytes, 64 new bytes
satisfy the condition of the poll of `m`, and a poll past the idle threshold trains. -/
theorem idle_trigger_hears (m : Model) (ring : Mem) (past acts : List Act)
    (hpast : JustTrained m past)
    (hkeeps : Admits step (Keeps m) (past.foldl step (boot ring)) acts)
    (hnew : idleNewMin ≤ fresh m (past ++ acts)) :
    NewBytes ((past ++ acts).foldl step (boot ring)) m ∧
      ∀ clock now, IdleClock.Past clock now →
        PollTrains m ((past ++ acts).foldl step (boot ring)) clock now := by
  have hin : InStep m ((past ++ acts).foldl step (boot ring)) (fresh m (past ++ acts)) := by
    rw [fresh, List.foldl_append, List.foldl_append]
    exact inStep_foldl acts (inStep_of_justTrained hpast ring) hkeeps
  have hbytes : NewBytes ((past ++ acts).foldl step (boot ring)) m := by
    have hlen : ilLenBytes _ = _ := hin
    rw [NewBytes, hlen]
    omega
  exact ⟨hbytes, fun clock now hidle ↦ pollTrains_of_newBytes hidle hbytes⟩

/-- A command of 70 characters after a training run, and the next poll trains. -/
theorem idle_trigger_hears_command :
    NewBytes ([.trainRun 0, .event (.command (List.replicate 70 0x61) [])].foldl step
        (boot fun _ ↦ 0)) .bigram ∧
      ∀ clock now, IdleClock.Past clock now →
        PollTrains .bigram ([.trainRun 0, .event (.command (List.replicate 70 0x61) [])].foldl step
          (boot fun _ ↦ 0)) clock now :=
  idle_trigger_hears .bigram (fun _ ↦ 0) [.trainRun 0]
    [.event (.command (List.replicate 70 0x61) [])]
    (.inr ⟨[], _, rfl, rfl⟩) (by decide) (by decide)

/-! ### A full log -/

/-- The log always stores the window of some records. -/
theorem exists_holdsWindow (ring : Mem) (acts : List Act) :
    ∃ recs, HoldsWindow (acts.foldl step (boot ring)).log recs := by
  induction acts using List.reverseRecOn with
  | nil => exact ⟨[], holdsWindow_empty ring⟩
  | append_singleton acts a ih =>
    rw [List.foldl_append]
    generalize acts.foldl step (boot ring) = s at ih
    obtain ⟨recs, hlog⟩ := ih
    cases a with
    | event ev =>
      obtain ⟨log', hrun, hlog'⟩ := foldlM_ilAppend_spec (le_refl ilRingSize) ev.records
        (fun r ↦ isRecord_of_mem_records) hlog
      refine ⟨recs ++ ev.records, ?_⟩
      have happend : ev.append ilRingSize s.log = some log' := by
        rw [append_eq_foldlM]
        exact hrun
      simpa only [List.foldl_cons, List.foldl_nil, step, happend, Option.getD_some] using hlog'
    | clear => exact ⟨[], holdsWindow_empty s.log.ring⟩
    | trainRun maxBytes => exact ⟨recs, hlog⟩
    | transTrain maxBytes ctx allocated => exact ⟨recs, hlog⟩

theorem len_lt_ilRingSize (ring : Mem) (acts : List Act) :
    (acts.foldl step (boot ring)).log.len < ilRingSize := by
  obtain ⟨recs, hlog⟩ := exists_holdsWindow ring acts
  have hfits := (isWindow_trim recs : IsWindow recordSize (ilRingSize - 1) recs _).fits
  rw [← hlog.len_eq, ilRingSize] at hfits
  rw [ilRingSize]
  omega

/-- A command of 241 characters; with its tick it takes 255 bytes, and 257 of them fill the log. -/
def longCommand : Event := .command (List.replicate 241 0x61) []

theorem total_longCommand : total recordSize longCommand.records = 255 := by decide +kernel

theorem len_longCommands (ring : Mem) (n : ℕ) (hn : n ≤ 257) :
    ((List.replicate n (Act.event longCommand)).foldl step (boot ring)).log.len = 255 * n := by
  induction n with
  | zero => rfl
  | succ n ih =>
    have hlen := ih (by omega)
    rw [List.replicate_succ', List.foldl_append, List.foldl_cons, List.foldl_nil,
      len_step_event (by rw [hlen, total_longCommand, ilRingSize]; omega), hlen,
      total_longCommand, Nat.mul_succ]

/-- A session that fills the log, a training run of each model, and one more command. -/
def fullSession : List Act :=
  List.replicate 257 (.event longCommand) ++
    [.trainRun 0, .transTrain 0 256 true, .event longCommand]

/-- Behind a full log both triggers are deaf: 255 new bytes since the last training run, nothing
ever cleared, and neither condition is met. -/
theorem idle_trigger_deaf :
    Act.clear ∉ fullSession ∧
      idleNewMin ≤ fresh .bigram fullSession ∧
      ¬ NewBytes (fullSession.foldl step (boot fun _ ↦ 0)) .bigram ∧
      idleNewMin ≤ fresh .transformer fullSession ∧
      ¬ NewBytes (fullSession.foldl step (boot fun _ ↦ 0)) .transformer := by
  have hcount (m : Model) : idleNewMin ≤ fresh m fullSession := by
    rw [fresh, fullSession, List.foldl_append]
    change idleNewMin ≤ _ + total recordSize longCommand.records
    rw [total_longCommand, idleNewMin]
    omega
  have hlen := len_longCommands (fun _ ↦ 0) 257 (le_refl _)
  have hmark (m : Model) : (fullSession.foldl step (boot fun _ ↦ 0)).watermark m = 255 * 257 := by
    rw [fullSession, List.foldl_append]
    generalize (List.replicate 257 (Act.event longCommand)).foldl step (boot fun _ ↦ 0) = s at hlen
    cases m with
    | bigram => exact hlen
    | transformer => exact hlen
  have hdeaf (m : Model) : ¬ NewBytes (fullSession.foldl step (boot fun _ ↦ 0)) m := by
    have hshort := len_lt_ilRingSize (fun _ ↦ 0) fullSession
    rw [NewBytes, hmark, not_not, ilLenBytes, idleNewMin]
    rw [ilRingSize] at hshort
    omega
  have hkept : Act.clear ∉ fullSession := by
    rw [fullSession, List.mem_append]
    rintro (hmany | hlast)
    · cases List.eq_of_mem_replicate hmany
    · simp at hlast
  exact ⟨hkept, hcount _, hdeaf _, hcount _, hdeaf _⟩

end NoOsKernel.Log
