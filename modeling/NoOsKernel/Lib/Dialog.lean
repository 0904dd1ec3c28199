import Mathlib.Tactic.Common

/-!
# Programs that ask

A `Dialog ρ ε α` is a program that reports events of `ε`, makes requests of `ρ`, each of which may be
refused, and ends with a value. In `Dialog.run` a state answers the requests. `Dialog.result`,
`Dialog.demands` and `Dialog.reports` are what happens when nothing is refused: a run in which all
demands are met is that one (`Dialog.run_eq_of_meets`). `Dialog.Always` bounds the events and the
results of all runs, whatever the answers are; it is proved by going through the text of a program.
-/

set_option autoImplicit false
set_option relaxedAutoImplicit false

namespace NoOsKernel.Lib

/-- A program that reports events and makes requests. -/
inductive Dialog (ρ ε α : Type) where
  | done (a : α)
  | out (e : ε) (p : Dialog ρ ε α)
  | ask (r : ρ) (k : Bool → Dialog ρ ε α)

/-- What can be seen of a run: an event, or a request with its answer. -/
inductive Act (ρ ε : Type) where
  | did (e : ε)
  | asked (r : ρ) (granted : Bool)
  deriving DecidableEq

/-- A run: its value, what was seen of it, and the state it leaves. -/
structure Transcript (σ ρ ε α : Type) where
  value : α
  acts : List (Act ρ ε)
  state : σ

namespace Dialog

variable {ρ ε α β γ σ : Type}

/-- One program after another. -/
def bind : Dialog ρ ε α → (α → Dialog ρ ε β) → Dialog ρ ε β
  | done a, f => f a
  | out e p, f => out e (p.bind f)
  | ask r k, f => ask r fun b ↦ (k b).bind f

instance : Monad (Dialog ρ ε) where
  pure := done
  bind := bind

/-- A run of a program. A state answers a request and changes. -/
def run (answer : σ → ρ → Bool × σ) : Dialog ρ ε α → σ → Transcript σ ρ ε α
  | done a, s => ⟨a, [], s⟩
  | out e p, s =>
    let r := p.run answer s
    { r with acts := .did e :: r.acts }
  | ask q k, s =>
    let (granted, s) := answer s q
    let r := (k granted).run answer s
    { r with acts := .asked q granted :: r.acts }

/-- The value when nothing is refused. -/
def result : Dialog ρ ε α → α
  | done a => a
  | out _ p => p.result
  | ask _ k => (k true).result

/-- The requests when nothing is refused. -/
def demands : Dialog ρ ε α → List ρ
  | done _ => []
  | out _ p => p.demands
  | ask r k => r :: (k true).demands

/-- The events when nothing is refused. -/
def reports : Dialog ρ ε α → List ε
  | done _ => []
  | out e p => e :: p.reports
  | ask _ k => (k true).reports

variable {p : Dialog ρ ε α} {f : α → Dialog ρ ε β}

@[simp] theorem result_bind : (p.bind f).result = (f p.result).result := by
  induction p with
  | done a => rfl
  | out e p ih => exact ih
  | ask r k ih => exact ih true

@[simp] theorem demands_bind : (p.bind f).demands = p.demands ++ (f p.result).demands := by
  induction p with
  | done a => rfl
  | out e p ih => exact ih
  | ask r k ih => exact congrArg (r :: ·) (ih true)

@[simp] theorem reports_bind : (p.bind f).reports = p.reports ++ (f p.result).reports := by
  induction p with
  | done a => rfl
  | out e p ih => exact congrArg (e :: ·) ih
  | ask r k ih => exact ih true

/-! ### Runs in which nothing is refused -/

/-- All requests are granted one after another. -/
def Meets (answer : σ → ρ → Bool × σ) : σ → List ρ → Prop
  | _, [] => True
  | s, r :: rs => (answer s r).1 = true ∧ Meets answer (answer s r).2 rs

variable {answer : σ → ρ → Bool × σ} {s : σ}

theorem run_eq_of_meets (h : Meets answer s p.demands) :
    (p.run answer s).value = p.result ∧ ∀ r, .asked r false ∉ (p.run answer s).acts := by
  induction p generalizing s with
  | done a => exact ⟨rfl, fun r hr ↦ absurd hr List.not_mem_nil⟩
  | out e p ih =>
    obtain ⟨hvalue, hacts⟩ := ih h
    refine ⟨hvalue, fun r hr ↦ ?_⟩
    rcases List.mem_cons.mp hr with heq | hr
    · cases heq
    · exact hacts r hr
  | ask q k ih =>
    obtain ⟨hgrant, hrest⟩ := h
    obtain ⟨hvalue, hacts⟩ := ih true hrest
    simp only [run, hgrant]
    refine ⟨hvalue, fun r hr ↦ ?_⟩
    rcases List.mem_cons.mp hr with heq | hr
    · cases heq
    · exact hacts r hr

/-- An event of the run in which nothing is refused. -/
theorem did_of_reports (h : Meets answer s p.demands) {e : ε} (he : e ∈ p.reports) :
    .did e ∈ (p.run answer s).acts := by
  induction p generalizing s with
  | done a => exact absurd he List.not_mem_nil
  | out e' p ih =>
    rcases List.mem_cons.mp he with rfl | he
    · exact List.mem_cons_self
    · exact List.mem_cons_of_mem _ (ih h he)
  | ask q k ih =>
    obtain ⟨hgrant, hrest⟩ := h
    simp only [run, hgrant]
    exact List.mem_cons_of_mem _ (ih true hrest he)

/-! ### Events in front of a program -/

/-- The events `es`, and then a program. -/
def outs (es : List ε) (p : Dialog ρ ε α) : Dialog ρ ε α := es.foldr out p

theorem outs_append (es es' : List ε) : (p.outs es').outs es = p.outs (es ++ es') :=
  (List.foldr_append).symm

theorem outs_bind (es : List ε) : (p.outs es).bind f = (p.bind f).outs es := by
  induction es with
  | nil => rfl
  | cons e es ih => exact congrArg (out e) ih

@[simp] theorem result_outs (es : List ε) : (p.outs es).result = p.result := by
  induction es with
  | nil => rfl
  | cons e es ih => exact ih

@[simp] theorem demands_outs (es : List ε) : (p.outs es).demands = p.demands := by
  induction es with
  | nil => rfl
  | cons e es ih => exact ih

@[simp] theorem reports_outs (es : List ε) : (p.outs es).reports = es ++ p.reports := by
  induction es with
  | nil => rfl
  | cons e es ih => exact congrArg (e :: ·) ih

/-! ### All runs -/

/-- Whatever the answers are, every event meets `ok` and every value `post`. -/
def Always (ok : ε → Prop) (post : α → Prop) : Dialog ρ ε α → Prop
  | done a => post a
  | out e p => ok e ∧ Always ok post p
  | ask _ k => ∀ b, Always ok post (k b)

variable {ok : ε → Prop} {post : α → Prop} {post' : β → Prop}

theorem Always.bind (hp : p.Always ok post) (hf : ∀ a, post a → (f a).Always ok post') :
    (p.bind f).Always ok post' := by
  induction p with
  | done a => exact hf a hp
  | out e p ih => exact ⟨hp.1, ih hp.2⟩
  | ask r k ih => exact fun b ↦ ih b (hp b)

theorem Always.mono {post' : α → Prop} (hp : p.Always ok post) (hpost : ∀ a, post a → post' a) :
    p.Always ok post' := by
  induction p with
  | done a => exact hpost a hp
  | out e p ih => exact ⟨hp.1, ih hp.2⟩
  | ask r k ih => exact fun b ↦ ih b (hp b)

theorem Always.outs {es : List ε} (hes : ∀ e ∈ es, ok e) (hp : p.Always ok post) :
    (p.outs es).Always ok post := by
  induction es with
  | nil => exact hp
  | cons e es ih =>
    exact ⟨hes e List.mem_cons_self, ih fun e' he' ↦ hes e' (List.mem_cons_of_mem _ he')⟩

theorem Always.run (hp : p.Always ok post) (answer : σ → ρ → Bool × σ) (s : σ) :
    post (p.run answer s).value ∧ ∀ e, .did e ∈ (p.run answer s).acts → ok e := by
  induction p generalizing s with
  | done a => exact ⟨hp, fun e he ↦ absurd he List.not_mem_nil⟩
  | out e p ih =>
    obtain ⟨hvalue, hacts⟩ := ih hp.2 s
    refine ⟨hvalue, fun e' he' ↦ ?_⟩
    rcases List.mem_cons.mp he' with heq | he'
    · cases heq
      exact hp.1
    · exact hacts e' he'
  | ask q k ih =>
    obtain ⟨hvalue, hacts⟩ := ih (answer s q).1 (hp _) (answer s q).2
    refine ⟨hvalue, fun e he ↦ ?_⟩
    rcases List.mem_cons.mp he with heq | he
    · cases heq
    · exact hacts e he

theorem Always.result (hp : p.Always ok post) : post p.result := by
  induction p with
  | done a => exact hp
  | out e p ih => exact ih hp.2
  | ask r k ih => exact ih true (hp true)

end Dialog

end NoOsKernel.Lib
