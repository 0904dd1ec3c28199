import Mathlib
import NoOsKernel.Lib.Dialog

/-!
# Scanners

A `Scan ρ ε α` is a dialog with a cursor: it is started at an index and ends at one, with a value, with
null, or stuck because it has run out of fuel. In a sequence, null and stuck end everything; `attempt`
goes on behind null. `Scan.Does` says what a scanner does that asks for nothing: it goes from one
index to another and has only one run. `Scan.Ensures` bounds all runs from an index, `Scan.Reaches` by
how far they get. `Scan.Reads` says what a scanner makes of its input when nothing is refused, and how
much it asks for.
-/

set_option autoImplicit false
set_option relaxedAutoImplicit false

namespace NoOsKernel.Lib

/-- How a scanner ends. -/
inductive End (α : Type) where
  | ok (a : α)
  | null
  | stuck
  deriving DecidableEq

/-- A dialog with a cursor. -/
def Scan (ρ ε α : Type) := ℕ → Dialog ρ ε (End α × ℕ)

namespace Scan

variable {ρ ε α β : Type}

/-- What comes behind a scanner that has ended. -/
def follow (f : α → Scan ρ ε β) : End α × ℕ → Dialog ρ ε (End β × ℕ)
  | (.ok a, j) => f a j
  | (.null, j) => .done (.null, j)
  | (.stuck, j) => .done (.stuck, j)

instance : Monad (Scan ρ ε) where
  pure a := fun i ↦ .done (.ok a, i)
  bind p f := fun i ↦ (p i).bind (follow f)

/-- Null. -/
def fail : Scan ρ ε α := fun i ↦ .done (.null, i)

/-- Out of fuel. -/
def stuck : Scan ρ ε α := fun i ↦ .done (.stuck, i)

/-- Where the cursor is. -/
def pos : Scan ρ ε ℕ := fun i ↦ .done (.ok i, i)

/-- The cursor moves. -/
def advance (k : ℕ) : Scan ρ ε Unit := fun i ↦ .done (.ok (), i + k)

/-- An event. -/
def report (e : ε) : Scan ρ ε Unit := fun i ↦ .out e (.done (.ok (), i))

/-- An event, and then null. -/
def failWith (e : ε) : Scan ρ ε α := do
  report e
  fail

/-- A request and its answer. -/
def request (r : ρ) : Scan ρ ε Bool := fun i ↦ .ask r fun b ↦ .done (.ok b, i)

/-- The end of an attempt. -/
def caught : End α × ℕ → End (Option α) × ℕ
  | (.ok a, j) => (.ok (some a), j)
  | (.null, j) => (.ok none, j)
  | (.stuck, j) => (.stuck, j)

/-- A scanner whose null is a value. -/
def attempt (p : Scan ρ ε α) : Scan ρ ε (Option α) := fun i ↦ (p i).bind fun r ↦ .done (caught r)

variable {ok : ε → Prop} {p q r : Scan ρ ε α} {f : α → Scan ρ ε β} {i j k : ℕ} {a : α} {b : β}

/-! ### Scanners that ask for nothing -/

/-- From `i` a scanner has events that meet `ok`, makes no request and ends at `j` with `a`. -/
def Does (ok : ε → Prop) (p : Scan ρ ε α) (i : ℕ) (a : α) (j : ℕ) : Prop :=
  ∃ es, (∀ e ∈ es, ok e) ∧ p i = (Dialog.done (.ok a, j)).outs es

theorem does_pure (ok : ε → Prop) (a : α) (i : ℕ) : Does ok (pure a : Scan ρ ε α) i a i :=
  ⟨[], List.forall_mem_nil ok, rfl⟩

theorem does_pos (ok : ε → Prop) (i : ℕ) : Does ok (pos : Scan ρ ε ℕ) i i i :=
  ⟨[], List.forall_mem_nil ok, rfl⟩

theorem does_advance (ok : ε → Prop) (n i : ℕ) : Does ok (advance n : Scan ρ ε Unit) i () (i + n) :=
  ⟨[], List.forall_mem_nil ok, rfl⟩

theorem does_report {e : ε} (he : ok e) (i : ℕ) : Does ok (report e : Scan ρ ε Unit) i () i :=
  ⟨[e], List.forall_mem_singleton.mpr he, rfl⟩

/-- From `i` a scanner has events that meet `ok`, makes no request and goes on as `q` from `j`. -/
def Comes (ok : ε → Prop) (p : Scan ρ ε α) (i : ℕ) (q : Scan ρ ε α) (j : ℕ) : Prop :=
  ∃ es, (∀ e ∈ es, ok e) ∧ p i = (q j).outs es

theorem Comes.refl (ok : ε → Prop) (p : Scan ρ ε α) (i : ℕ) : Comes ok p i p i :=
  ⟨[], List.forall_mem_nil ok, rfl⟩

theorem Comes.trans (h : Comes ok p i q j) (h' : Comes ok q j r k) : Comes ok p i r k := by
  obtain ⟨es, hes, hp⟩ := h
  obtain ⟨es', hes', hq⟩ := h'
  refine ⟨es ++ es', List.forall_mem_append.mpr ⟨hes, hes'⟩, ?_⟩
  rw [hp, hq, Dialog.outs_append]

theorem Comes.does (h : Comes ok p i q j) (h' : Does ok q j a k) : Does ok p i a k := by
  obtain ⟨es, hes, hp⟩ := h
  obtain ⟨es', hes', hq⟩ := h'
  refine ⟨es ++ es', List.forall_mem_append.mpr ⟨hes, hes'⟩, ?_⟩
  rw [hp, hq, Dialog.outs_append]

/-- What follows a scanner that asks for nothing starts where that one ends. -/
theorem Does.comes (h : Does ok p i a j) : Comes ok (p >>= f) i (f a) j := by
  obtain ⟨es, hes, hp⟩ := h
  refine ⟨es, hes, ?_⟩
  change (p i).bind (Scan.follow f) = _
  rw [hp, Dialog.outs_bind]
  rfl

theorem Does.bind (h : Does ok p i a j) (h' : Does ok (f a) j b k) : Does ok (p >>= f) i b k :=
  h.comes.does h'

/-! ### All runs -/

/-- Whatever the answers are, a run from `i` has events that meet `ok` and ends as `post` says. -/
def Ensures (ok : ε → Prop) (p : Scan ρ ε α) (i : ℕ) (post : End α × ℕ → Prop) : Prop :=
  (p i).Always ok post

/-- A scanner ends with a value, or with null, as these say; it does not get stuck. -/
def Post (good : α → ℕ → Prop) (bad : ℕ → Prop) : End α × ℕ → Prop
  | (.ok a, j) => good a j
  | (.null, j) => bad j
  | (.stuck, _) => False

variable {good : α → ℕ → Prop} {good' : β → ℕ → Prop} {bad : ℕ → Prop}

theorem Post.not_stuck {r : End α × ℕ} (h : Post good bad r) : r.1 ≠ .stuck := by
  obtain ⟨a | _ | _, j⟩ := r
  · rintro ⟨⟩
  · rintro ⟨⟩
  · exact h.elim

theorem ensures_bind (hp : Ensures ok p i (Post good bad))
    (hf : ∀ a j, good a j → Ensures ok (f a) j (Post good' bad)) :
    Ensures ok (p >>= f) i (Post good' bad) := by
  refine Dialog.Always.bind hp ?_
  rintro ⟨a | _ | _, j⟩ hr
  · exact hf a j hr
  · exact hr
  · exact hr.elim

theorem ensures_pure {a : α} (h : good a i) : Ensures ok (pure a : Scan ρ ε α) i (Post good bad) := h

theorem ensures_failWith {e : ε} (he : ok e) (h : bad i) :
    Ensures ok (failWith e : Scan ρ ε α) i (Post good bad) :=
  ⟨he, h⟩

theorem ensures_request {r : ρ} {good : Bool → ℕ → Prop} (h : ∀ b, good b i) :
    Ensures ok (request r : Scan ρ ε Bool) i (Post good bad) := h

theorem request_stays (r : ρ) :
    Ensures ok (request r : Scan ρ ε Bool) i (Post (fun _ j ↦ j = i) bad) :=
  ensures_request fun _ ↦ rfl

theorem Ensures.mono {good₂ : α → ℕ → Prop} {bad₂ : ℕ → Prop} (h : Ensures ok p i (Post good bad))
    (hgood : ∀ a j, good a j → good₂ a j) (hbad : ∀ j, bad j → bad₂ j) :
    Ensures ok p i (Post good₂ bad₂) := by
  refine Dialog.Always.mono h ?_
  rintro ⟨a | _ | _, j⟩ hr
  · exact hgood a j hr
  · exact hbad j hr
  · exact hr.elim

theorem ensures_attempt {good' : Option α → ℕ → Prop}
    (hp : Ensures ok p i (Post (fun a j ↦ good' (some a) j) (fun j ↦ good' none j))) :
    Ensures ok (attempt p) i (Post good' bad) := by
  refine Dialog.Always.bind hp ?_
  rintro ⟨a | _ | _, j⟩ hr
  · exact hr
  · exact hr
  · exact hr.elim

theorem Comes.ensures {post : End α × ℕ → Prop} (h : Comes ok p i q j) (hq : Ensures ok q j post) :
    Ensures ok p i post := by
  obtain ⟨es, hes, hp⟩ := h
  unfold Ensures
  rw [hp]
  exact .outs hes hq

theorem Does.ensures {post : End β × ℕ → Prop} (h : Does ok p i a j)
    (hf : Ensures ok (f a) j post) : Ensures ok (p >>= f) i post :=
  h.comes.ensures hf

theorem Does.ensures_self (h : Does ok p i a j) (ha : good a j) : Ensures ok p i (Post good bad) := by
  obtain ⟨es, hes, hp⟩ := h
  unfold Ensures
  rw [hp]
  exact .outs hes ha

/-! ### Scanners that go forward -/

/-- Whatever the answers are, a run from `i` ends, and behind `last` it never is; with a value it ends
at `lo` or behind. -/
def Reaches (ok : ε → Prop) (last : ℕ) (p : Scan ρ ε α) (i lo : ℕ) : Prop :=
  Ensures ok p i (Post (fun _ j ↦ lo ≤ j ∧ j ≤ last) (· ≤ last))

section Reaches

variable {last lo mid : ℕ}

theorem Reaches.mono (h : Reaches ok last p i mid) (hle : lo ≤ mid) : Reaches ok last p i lo :=
  Ensures.mono h (fun _ _ hj ↦ ⟨Nat.le_trans hle hj.1, hj.2⟩) fun _ hj ↦ hj

theorem reaches_bind (hp : Reaches ok last p i mid)
    (hf : ∀ a j, mid ≤ j → j ≤ last → Reaches ok last (f a) j lo) :
    Reaches ok last (p >>= f) i lo :=
  ensures_bind hp fun a j hj ↦ hf a j hj.1 hj.2

theorem reaches_pure (a : α) (hlo : lo ≤ i) (hi : i ≤ last) :
    Reaches ok last (pure a : Scan ρ ε α) i lo := ⟨hlo, hi⟩

theorem reaches_failWith {e : ε} (he : ok e) (hi : i ≤ last) :
    Reaches ok last (failWith e : Scan ρ ε α) i lo :=
  ensures_failWith he hi

/-- What follows a scanner that does not move. -/
theorem reaches_behind (hp : Ensures ok p i (Post (fun _ j ↦ j = i) (· ≤ last)))
    (hf : ∀ a, Reaches ok last (f a) i lo) : Reaches ok last (p >>= f) i lo := by
  refine ensures_bind hp ?_
  rintro a j rfl
  exact hf a

theorem reaches_request {r : ρ} {f : Bool → Scan ρ ε β}
    (hf : ∀ b, Reaches ok last (f b) i lo) : Reaches ok last (request r >>= f) i lo :=
  reaches_behind (request_stays r) hf

theorem reaches_attempt {f : Option α → Scan ρ ε β} (hp : Reaches ok last p i mid)
    (hsome : ∀ a j, mid ≤ j → j ≤ last → Reaches ok last (f (some a)) j lo)
    (hnone : ∀ j, j ≤ last → Reaches ok last (f none) j lo) :
    Reaches ok last (attempt p >>= f) i lo := by
  have hends : Ensures ok (attempt p) i
      (Post (fun a j ↦ j ≤ last ∧ ∀ x, a = some x → mid ≤ j) (· ≤ last)) := by
    refine ensures_attempt (Ensures.mono hp ?_ ?_)
    · exact fun _ _ hj ↦ ⟨hj.2, fun _ _ ↦ hj.1⟩
    · exact fun _ hj ↦ ⟨hj, by rintro _ ⟨⟩⟩
  refine ensures_bind hends ?_
  rintro (_ | a) j hj
  · exact hnone j hj.1
  · exact hsome a j (hj.2 a rfl) hj.1

end Reaches

/-! ### The run in which nothing is refused -/

/-- When nothing is refused, a run from `i` ends at `j` with `a` and has asked for `n` altogether. -/
def Reads (size : ρ → ℕ) (p : Scan ρ ε α) (i : ℕ) (a : α) (j n : ℕ) : Prop :=
  (p i).result = (.ok a, j) ∧ ((p i).demands.map size).sum = n

variable {size : ρ → ℕ} {m n : ℕ}

theorem reads_bind (hp : Reads size p i a j m) (hf : Reads size (f a) j b k n) :
    Reads size (p >>= f) i b k (m + n) := by
  have hresult : ((p >>= f) i).result = (follow f (p i).result).result := Dialog.result_bind
  have hdemands : ((p >>= f) i).demands = (p i).demands ++ (follow f (p i).result).demands :=
    Dialog.demands_bind
  obtain ⟨hvalue, hsize⟩ := hp
  obtain ⟨hvalue', hsize'⟩ := hf
  unfold Reads
  rw [hresult, hdemands, hvalue, List.map_append, List.sum_append, hsize]
  exact ⟨hvalue', congrArg (m + ·) hsize'⟩

theorem reads_request (r : ρ) (i : ℕ) :
    Reads size (request r : Scan ρ ε Bool) i true i (size r) :=
  ⟨rfl, Nat.add_zero _⟩

theorem Does.reads (h : Does ok p i a j) : Reads size p i a j 0 := by
  obtain ⟨es, -, hp⟩ := h
  unfold Reads
  rw [hp, Dialog.result_outs, Dialog.demands_outs]
  exact ⟨rfl, rfl⟩

theorem Comes.reads (h : Comes ok p i q j) (hq : Reads size q j a k n) : Reads size p i a k n := by
  obtain ⟨es, -, hp⟩ := h
  unfold Reads
  rwa [hp, Dialog.result_outs, Dialog.demands_outs]

theorem Does.reads_bind (h : Does ok p i a j) (hf : Reads size (f a) j b k n) :
    Reads size (p >>= f) i b k n :=
  h.comes.reads hf

/-- What a scanner reads if its fuel is enough. -/
def ReadsOrStuck (size : ρ → ℕ) (p : Scan ρ ε α) (i : ℕ) (a : α) (j n : ℕ) : Prop :=
  (p i).result.1 = .stuck ∨ Reads size p i a j n

theorem Reads.orStuck (h : Reads size p i a j n) : ReadsOrStuck size p i a j n := .inr h

theorem readsOrStuck_stuck (a : α) (i j n : ℕ) :
    ReadsOrStuck size (stuck : Scan ρ ε α) i a j n := .inl rfl

theorem ReadsOrStuck.bind (hp : ReadsOrStuck size p i a j m)
    (hf : ReadsOrStuck size (f a) j b k n) : ReadsOrStuck size (p >>= f) i b k (m + n) := by
  have hresult : ((p >>= f) i).result = (follow f (p i).result).result := Dialog.result_bind
  rcases hp with hstuck | hp
  · left
    rw [hresult]
    generalize (p i).result = r at hstuck
    obtain ⟨x, j'⟩ := r
    cases hstuck
    rfl
  · rcases hf with hstuck | hf
    · left
      rwa [hresult, hp.1]
    · exact (reads_bind hp hf).orStuck

theorem Does.readsOrStuck_bind (h : Does ok p i a j) (hf : ReadsOrStuck size (f a) j b k n) :
    ReadsOrStuck size (p >>= f) i b k n :=
  Nat.zero_add n ▸ h.reads.orStuck.bind hf

theorem ReadsOrStuck.of_eq (h : ReadsOrStuck size p i a j m) (hm : m = n) :
    ReadsOrStuck size p i a j n := hm ▸ h

theorem ReadsOrStuck.attempt (h : ReadsOrStuck size p i a j n) :
    ReadsOrStuck size (attempt p) i (some a) j n := by
  have hresult : (Scan.attempt p i).result = caught (p i).result := Dialog.result_bind
  have hdemands : (Scan.attempt p i).demands = (p i).demands :=
    Dialog.demands_bind.trans (List.append_nil _)
  rcases h with hstuck | ⟨hvalue, hsize⟩
  · left
    rw [hresult]
    generalize (p i).result = r at hstuck
    obtain ⟨x, j'⟩ := r
    cases hstuck
    rfl
  · right
    unfold Reads
    rw [hresult, hdemands, hvalue]
    exact ⟨rfl, hsize⟩

theorem Comes.reports (h : Comes ok p i q j) {e : ε} (he : e ∈ (q j).reports) :
    e ∈ (p i).reports := by
  obtain ⟨es, -, hp⟩ := h
  rw [hp, Dialog.reports_outs]
  exact List.mem_append_right es he

theorem reports_bind {e : ε} (he : e ∈ (p i).reports) : e ∈ ((p >>= f) i).reports := by
  have hreports : ((p >>= f) i).reports = (p i).reports ++ (follow f (p i).result).reports :=
    Dialog.reports_bind
  rw [hreports]
  exact List.mem_append_left _ he

/-- What a run reports behind a part that has been read. -/
theorem Reads.reports (h : Reads size p i a j n) {e : ε} (he : e ∈ (f a j).reports) :
    e ∈ ((p >>= f) i).reports := by
  have hreports : ((p >>= f) i).reports = (p i).reports ++ (follow f (p i).result).reports :=
    Dialog.reports_bind
  rw [hreports, h.1]
  exact List.mem_append_right _ he

end Scan

end NoOsKernel.Lib
