import NoOsKernel.Lib.Scan

/-!
# Refused requests

A scanner takes the refusal of a request in one of three ways: it gives up with an error, it goes on
and does harm, or it goes on as if the request had been granted. `Guarded` says that it treats each
request as a table says; it is proved by going through its text. A run is `Reported` if a refusal ends
it with null and an error, and nothing does harm. Whether a run is, can be seen from the requests that
are made when nothing is refused (`reported_iff`): what counts is the first one that is refused and
whose refusal is not ignored.
-/

set_option autoImplicit false
set_option relaxedAutoImplicit false

namespace NoOsKernel.Lib

namespace Dialog

variable {ρ ε α β γ δ σ : Type} {p : Dialog ρ ε α} {q : Dialog ρ ε β}

/-! ### Events that no run avoids -/

/-- Whatever the answers are, there is an event in `hit`, or the value meets `post`. -/
def Eventually (hit : ε → Prop) (post : α → Prop) : Dialog ρ ε α → Prop
  | done a => post a
  | out e p => hit e ∨ Eventually hit post p
  | ask _ k => ∀ b, Eventually hit post (k b)

variable {hit : ε → Prop} {post : α → Prop} {post' : β → Prop} {f : α → Dialog ρ ε β}

theorem Eventually.bind (hp : p.Eventually hit post)
    (hf : ∀ a, post a → (f a).Eventually hit post') : (p.bind f).Eventually hit post' := by
  induction p with
  | done a => exact hf a hp
  | out e p ih => exact hp.imp_right ih
  | ask r k ih => exact fun b ↦ ih b (hp b)

theorem Eventually.run (hp : p.Eventually hit post) (answer : σ → ρ → Bool × σ) (s : σ) :
    post (p.run answer s).value ∨ ∃ e, hit e ∧ .did e ∈ (p.run answer s).acts := by
  induction p generalizing s with
  | done a => exact .inl hp
  | out e p ih =>
    rcases hp with he | hp
    · exact .inr ⟨e, he, List.mem_cons_self⟩
    · exact (ih hp s).imp_right fun ⟨e', he', hmem⟩ ↦ ⟨e', he', List.mem_cons_of_mem _ hmem⟩
  | ask r k ih =>
    exact (ih _ (hp _) _).imp_right fun ⟨e, he, hmem⟩ ↦ ⟨e, he, List.mem_cons_of_mem _ hmem⟩

/-! ### Dialogs that differ in their values -/

/-- The same events and requests, and values in `R`. -/
inductive Alike (R : α → β → Prop) : Dialog ρ ε α → Dialog ρ ε β → Prop
  | done {a : α} {b : β} (h : R a b) : Alike R (done a) (done b)
  | out {e : ε} {p : Dialog ρ ε α} {q : Dialog ρ ε β} (h : Alike R p q) : Alike R (out e p) (out e q)
  | ask {r : ρ} {k : Bool → Dialog ρ ε α} {k' : Bool → Dialog ρ ε β}
    (h : ∀ b, Alike R (k b) (k' b)) : Alike R (ask r k) (ask r k')

variable {R : α → β → Prop} {S : γ → δ → Prop} {g : α → Dialog ρ ε γ} {g' : β → Dialog ρ ε δ}

theorem Alike.bind (h : Alike R p q) (hg : ∀ a b, R a b → Alike S (g a) (g' b)) :
    Alike S (p.bind g) (q.bind g') := by
  induction h with
  | done h => exact hg _ _ h
  | out _ ih => exact .out ih
  | ask _ ih => exact .ask ih

theorem alike_refl {R : α → α → Prop} (h : ∀ a, R a a) (p : Dialog ρ ε α) : Alike R p p := by
  induction p with
  | done a => exact .done (h a)
  | out e p ih => exact .out ih
  | ask r k ih => exact .ask ih

theorem bind_bind (g : β → Dialog ρ ε γ) : (p.bind f).bind g = p.bind fun a ↦ (f a).bind g := by
  induction p with
  | done a => rfl
  | out e p ih => exact congrArg (out e) ih
  | ask r k ih => exact congrArg (ask r) (funext ih)

theorem Alike.run (h : Alike R p q) (answer : σ → ρ → Bool × σ) (s : σ) :
    R (p.run answer s).value (q.run answer s).value ∧
      (p.run answer s).acts = (q.run answer s).acts := by
  induction h generalizing s with
  | done h => exact ⟨h, rfl⟩
  | @out e _ _ _ ih =>
    obtain ⟨hvalue, hacts⟩ := ih s
    exact ⟨hvalue, congrArg (Act.did e :: ·) hacts⟩
  | @ask r _ _ _ ih =>
    obtain ⟨hvalue, hacts⟩ := ih (answer s r).1 (answer s r).2
    exact ⟨hvalue, congrArg (Act.asked r (answer s r).1 :: ·) hacts⟩

end Dialog

/-- What is done about a refusal. -/
inductive Handling where
  | checked
  | unchecked
  | ignored
  deriving DecidableEq

/-- A table of the requests, with the events that do harm and those that are errors. -/
structure Care (ρ ε : Type) where
  handling : ρ → Handling
  harm : ε → Prop
  error : ε → Prop

namespace Scan

open Dialog

variable {ρ ε α β σ : Type}

theorem ok_ne_null (a : α) : End.ok a ≠ .null := by rintro ⟨⟩

theorem stuck_ne_null : (End.stuck : End α) ≠ .null := by rintro ⟨⟩

/-- Ends of the same kind at the same place, with values in `R`. -/
inductive Ends (R : α → β → Prop) : End α × ℕ → End β × ℕ → Prop
  | ok {a : α} {b : β} (h : R a b) (j : ℕ) : Ends R (.ok a, j) (.ok b, j)
  | null (j : ℕ) : Ends R (.null, j) (.null, j)
  | stuck (j : ℕ) : Ends R (.stuck, j) (.stuck, j)

/-- No two values. -/
abbrev Never (_ : α) (_ : β) : Prop := False

/-- Any two values. -/
abbrev Any (_ : α) (_ : β) : Prop := True

theorem Ends.null_iff {R : α → β → Prop} {x : End α × ℕ} {y : End β × ℕ} (h : Ends R x y) :
    x.1 = .null ↔ y.1 = .null := by
  cases h with
  | ok h j => exact iff_of_false (ok_ne_null _) (ok_ne_null _)
  | null j => exact iff_of_true rfl rfl
  | stuck j => exact iff_of_false stuck_ne_null stuck_ne_null

/-- A dialog that only ends with null has no values. -/
theorem alike_of_null {ok : ε → Prop} {S : β → β → Prop} {p : Dialog ρ ε (End β × ℕ)}
    (h : p.Always ok fun x ↦ x.1 = .null) : Alike (Ends S) p p := by
  induction p with
  | done x =>
    obtain ⟨_, j⟩ := x
    obtain rfl : _ = End.null := h
    exact .done (.null j)
  | out e p ih => exact .out (ih h.2)
  | ask r k ih => exact .ask fun b ↦ ih b (h b)

/-! ### Scanners that take refusals as a table says -/

section Guarded

variable (c : Care ρ ε)

/-- The end of a scanner that gives up: null, an error, and no harm before it. -/
def GivesUp (p : Dialog ρ ε (End α × ℕ)) : Prop :=
  p.Always (fun e ↦ ¬ c.harm e) (fun x ↦ x.1 = .null) ∧ p.Eventually c.error (fun _ ↦ False)

/-- Harm is done, unless fuel runs out. -/
def Harms (p : Dialog ρ ε (End α × ℕ)) : Prop := p.Eventually c.harm (fun x ↦ x.1 = .stuck)

/-- An error, and then as in the other dialog with values in `R`. -/
def GoesOn (R : α → α → Prop) (p q : Dialog ρ ε (End α × ℕ)) : Prop :=
  ∃ e p', p = .out e p' ∧ c.error e ∧ ¬ c.harm e ∧ Alike (Ends R) p' q

/-- What a dialog does behind a refusal, and what it does behind the grant. -/
def Handled (R : α → α → Prop) : Handling → Dialog ρ ε (End α × ℕ) → Dialog ρ ε (End α × ℕ) → Prop
  | .checked, refused, _ => GivesUp c refused
  | .unchecked, refused, _ => Harms c refused
  | .ignored, refused, granted => GoesOn c R refused granted

/-- As long as nothing is refused there is no harm, and each refusal is taken as the table says. -/
def Guarded (R : α → α → Prop) : Dialog ρ ε (End α × ℕ) → Prop
  | .done _ => True
  | .out e p => ¬ c.harm e ∧ Guarded R p
  | .ask r k => Guarded R (k true) ∧ Handled c R (c.handling r) (k false) (k true)

variable {c} {R : α → α → Prop} {S : β → β → Prop} {p q : Dialog ρ ε (End α × ℕ)}
  {g : End α × ℕ → Dialog ρ ε (End β × ℕ)}

theorem Handled.bind {h : Handling} (hp : Handled c R h p q)
    (hnull : ∀ j, (g (.null, j)).Always (fun e ↦ ¬ c.harm e) (fun x ↦ x.1 = .null))
    (hstuck : ∀ j, Harms c (g (.stuck, j)))
    (hlike : ∀ x y, Ends R x y → Alike (Ends S) (g x) (g y)) :
    Handled c S h (p.bind g) (q.bind g) := by
  cases h with
  | checked =>
    refine ⟨hp.1.bind ?_, hp.2.bind fun _ ↦ False.elim⟩
    rintro ⟨_, j⟩ rfl
    exact hnull j
  | unchecked =>
    refine Eventually.bind hp ?_
    rintro ⟨_, j⟩ rfl
    exact hstuck j
  | ignored =>
    obtain ⟨e, p', rfl, herror, hharm, halike⟩ := hp
    exact ⟨e, p'.bind g, rfl, herror, hharm, halike.bind hlike⟩

theorem Guarded.bind (hp : Guarded c R p) (hg : ∀ x, Guarded c S (g x))
    (hnull : ∀ j, (g (.null, j)).Always (fun e ↦ ¬ c.harm e) (fun x ↦ x.1 = .null))
    (hstuck : ∀ j, Harms c (g (.stuck, j)))
    (hlike : ∀ x y, Ends R x y → Alike (Ends S) (g x) (g y)) : Guarded c S (p.bind g) := by
  induction p with
  | done x => exact hg x
  | out e p ih => exact ⟨hp.1, ih hp.2⟩
  | ask r k ih => exact ⟨ih true hp.1, hp.2.bind hnull hstuck hlike⟩

/-! ### Runs -/

variable (c) in
/-- The first request that is refused and whose refusal is not ignored. -/
def firstRefused (answer : σ → ρ → Bool × σ) : σ → List ρ → Option ρ
  | _, [] => none
  | s, r :: rs =>
    if (answer s r).1 = false ∧ c.handling r ≠ .ignored then some r
    else firstRefused answer (answer s r).2 rs

/-- What is wanted of a run: a refusal ends it with null and an error, and nothing does harm. -/
structure Reported (c : Care ρ ε) (t : Transcript σ ρ ε (End α × ℕ)) : Prop where
  null : ∀ r, .asked r false ∈ t.acts → t.value.1 = .null
  error : ∀ r, .asked r false ∈ t.acts → ∃ e, c.error e ∧ .did e ∈ t.acts
  harmless : ∀ e, .did e ∈ t.acts → ¬ c.harm e

variable (c) in
/-- The first refusal that counts is checked. If there is none, nothing is refused, or the scanner
ends with null anyway. -/
def Spared (answer : σ → ρ → Bool × σ) (s : σ) (p : Dialog ρ ε (End α × ℕ)) : Prop :=
  match firstRefused c answer s p.demands with
  | some r => c.handling r = .checked
  | none => Meets answer s p.demands ∨ p.result.1 = .null

variable {answer : σ → ρ → Bool × σ} {s : σ} {r : ρ} {rs : List ρ}

theorem handling_firstRefused (h : firstRefused c answer s rs = some r) :
    c.handling r ≠ .ignored := by
  induction rs generalizing s with
  | nil => cases h
  | cons r' rs ih =>
    rw [firstRefused] at h
    split_ifs at h with hrefused
    · cases h
      exact hrefused.2
    · exact ih h

/-- If no refusal is ignored, nothing is refused but what counts. -/
theorem meets_of_firstRefused (hall : ∀ r ∈ rs, c.handling r ≠ .ignored)
    (h : firstRefused c answer s rs = none) : Meets answer s rs := by
  induction rs generalizing s with
  | nil => trivial
  | cons r rs ih =>
    obtain ⟨hr, hrs⟩ := List.forall_mem_cons.mp hall
    rw [firstRefused] at h
    split_ifs at h with hrefused
    refine ⟨?_, ih hrs h⟩
    by_contra hgranted
    exact hrefused ⟨Bool.eq_false_of_not_eq_true hgranted, hr⟩

variable (c) in
/-- A run that goes on as another one, apart from harmless events in front. -/
structure Behind (t u : Transcript σ ρ ε (End α × ℕ)) : Prop where
  null : t.value.1 = .null ↔ u.value.1 = .null
  stuck : u.value.1 = .stuck → t.value.1 = .stuck
  mem : ∀ a ∈ u.acts, a ∈ t.acts
  harm : ∀ e, c.harm e → .did e ∈ t.acts → .did e ∈ u.acts

theorem Guarded.behind_out {e : ε} (h : Guarded c R (.out e p)) (answer : σ → ρ → Bool × σ)
    (s : σ) : Behind c ((Dialog.out e p).run answer s) (p.run answer s) where
  null := Iff.rfl
  stuck := id
  mem := fun _ ↦ List.mem_cons_of_mem _
  harm := by
    intro e' he' hmem
    rcases List.mem_cons.mp hmem with heq | hmem
    · cases heq
      exact absurd he' h.1
    · exact hmem

theorem GoesOn.behind (h : GoesOn c R p q) : Behind c (p.run answer s) (q.run answer s) := by
  obtain ⟨e, p', rfl, -, hharm, hlike⟩ := h
  obtain ⟨hends, hacts⟩ := hlike.run answer s
  constructor
  case null => exact hends.null_iff
  case stuck =>
    intro hstuck
    change (p'.run answer s).value.1 = .stuck
    generalize (p'.run answer s).value = x at hends
    generalize (q.run answer s).value = y at hends hstuck
    cases hends with
    | ok _ _ => cases hstuck
    | null _ => cases hstuck
    | stuck _ => rfl
  case mem =>
    intro a ha
    exact List.mem_cons_of_mem _ (hacts ▸ ha)
  case harm =>
    intro e' he' hmem
    rcases List.mem_cons.mp hmem with heq | hmem
    · cases heq
      exact absurd he' hharm
    · exact hacts ▸ hmem

theorem Guarded.behind_ask {k : Bool → Dialog ρ ε (End α × ℕ)} (h : Guarded c R (.ask r k))
    (hgo : ¬ ((answer s r).1 = false ∧ c.handling r ≠ .ignored)) :
    Behind c ((Dialog.ask r k).run answer s) ((k true).run answer (answer s r).2) := by
  have hbehind : Behind c ((k (answer s r).1).run answer (answer s r).2)
      ((k true).run answer (answer s r).2) := by
    cases hgranted : (answer s r).1 with
    | true => exact ⟨Iff.rfl, id, fun _ ↦ id, fun _ _ ↦ id⟩
    | false =>
      have hignored : c.handling r = .ignored := by
        by_contra hne
        exact hgo ⟨hgranted, hne⟩
      have hhandled := h.2
      rw [hignored] at hhandled
      exact GoesOn.behind hhandled
  refine ⟨hbehind.null, hbehind.stuck, fun a ha ↦ List.mem_cons_of_mem _ (hbehind.mem a ha), ?_⟩
  intro e he hmem
  rcases List.mem_cons.mp hmem with heq | hmem
  · cases heq
  · exact hbehind.harm e he hmem

theorem run_refused {k : Bool → Dialog ρ ε (End α × ℕ)} (h : (answer s r).1 = false) :
    (Dialog.ask r k).run answer s =
      { (k false).run answer (answer s r).2 with
        acts := .asked r false :: ((k false).run answer (answer s r).2).acts } := by
  rw [Dialog.run, ← h]

theorem Guarded.run_checked (hp : Guarded c R p)
    (hfirst : firstRefused c answer s p.demands = some r) (hr : c.handling r = .checked) :
    (p.run answer s).value.1 = .null ∧ (∃ e, c.error e ∧ .did e ∈ (p.run answer s).acts) ∧
      ∀ e, .did e ∈ (p.run answer s).acts → ¬ c.harm e := by
  induction p generalizing s with
  | done x => cases hfirst
  | out e p ih =>
    have hbehind := hp.behind_out answer s
    obtain ⟨hnull, ⟨e', he', hmem⟩, hharmless⟩ := ih hp.2 hfirst
    exact ⟨hbehind.null.mpr hnull, ⟨e', he', hbehind.mem _ hmem⟩,
      fun e hmem hharm ↦ hharmless e (hbehind.harm e hharm hmem) hharm⟩
  | ask q k ih =>
    rw [demands, firstRefused] at hfirst
    split_ifs at hfirst with hrefused
    · obtain rfl : q = r := Option.some_injective _ hfirst
      have hgives : GivesUp c (k false) := by
        have hhandled := hp.2
        rwa [hr] at hhandled
      obtain ⟨hnull, hharmless⟩ := hgives.1.run answer (answer s q).2
      obtain ⟨e, he, hmem⟩ := (hgives.2.run answer (answer s q).2).resolve_left id
      rw [run_refused hrefused.1]
      refine ⟨hnull, ⟨e, he, List.mem_cons_of_mem _ hmem⟩, fun e hmem ↦ ?_⟩
      rcases List.mem_cons.mp hmem with heq | hmem
      · cases heq
      · exact hharmless e hmem
    · have hbehind := hp.behind_ask hrefused
      obtain ⟨hnull, ⟨e, he, hmem⟩, hharmless⟩ := ih true hp.1 hfirst
      exact ⟨hbehind.null.mpr hnull, ⟨e, he, hbehind.mem _ hmem⟩,
        fun e hmem hharm ↦ hharmless e (hbehind.harm e hharm hmem) hharm⟩

theorem Guarded.run_unchecked (hp : Guarded c R p)
    (hfirst : firstRefused c answer s p.demands = some r) (hr : c.handling r = .unchecked) :
    (p.run answer s).value.1 = .stuck ∨ ∃ e, c.harm e ∧ .did e ∈ (p.run answer s).acts := by
  induction p generalizing s with
  | done x => cases hfirst
  | out e p ih =>
    have hbehind := hp.behind_out answer s
    exact (ih hp.2 hfirst).imp hbehind.stuck fun ⟨e', he', hmem⟩ ↦ ⟨e', he', hbehind.mem _ hmem⟩
  | ask q k ih =>
    rw [demands, firstRefused] at hfirst
    split_ifs at hfirst with hrefused
    · obtain rfl : q = r := Option.some_injective _ hfirst
      have hharms : Harms c (k false) := by
        have hhandled := hp.2
        rwa [hr] at hhandled
      rw [run_refused hrefused.1]
      exact (hharms.run answer (answer s q).2).imp_right fun ⟨e, he, hmem⟩ ↦
        ⟨e, he, List.mem_cons_of_mem _ hmem⟩
    · have hbehind := hp.behind_ask hrefused
      exact (ih true hp.1 hfirst).imp hbehind.stuck fun ⟨e, he, hmem⟩ ↦ ⟨e, he, hbehind.mem _ hmem⟩

theorem Guarded.run_ignored (hp : Guarded c R p)
    (hfirst : firstRefused c answer s p.demands = none) :
    ((p.run answer s).value.1 = .null ↔ p.result.1 = .null) ∧
      (∀ e, .did e ∈ (p.run answer s).acts → ¬ c.harm e) ∧
      (¬ Meets answer s p.demands → (∃ q, .asked q false ∈ (p.run answer s).acts) ∧
        ∃ e, c.error e ∧ .did e ∈ (p.run answer s).acts) := by
  induction p generalizing s with
  | done x => exact ⟨Iff.rfl, fun e he ↦ absurd he List.not_mem_nil, fun h ↦ absurd trivial h⟩
  | out e p ih =>
    have hbehind := hp.behind_out answer s
    obtain ⟨hnull, hharmless, hrefusal⟩ := ih hp.2 hfirst
    refine ⟨hbehind.null.trans hnull,
      fun e hmem hharm ↦ hharmless e (hbehind.harm e hharm hmem) hharm, fun hmeets ↦ ?_⟩
    obtain ⟨⟨q, hq⟩, e', he', hmem⟩ := hrefusal hmeets
    exact ⟨⟨q, hbehind.mem _ hq⟩, e', he', hbehind.mem _ hmem⟩
  | ask q k ih =>
    rw [demands, firstRefused] at hfirst
    split_ifs at hfirst with hrefused
    have hbehind := hp.behind_ask hrefused
    obtain ⟨hnull, hharmless, hrefusal⟩ := ih true hp.1 hfirst
    refine ⟨hbehind.null.trans hnull,
      fun e hmem hharm ↦ hharmless e (hbehind.harm e hharm hmem) hharm, fun hmeets ↦ ?_⟩
    cases hgranted : (answer s q).1 with
    | true =>
      obtain ⟨⟨r, hr⟩, e, he, hmem⟩ := hrefusal fun hrest ↦ hmeets ⟨hgranted, hrest⟩
      exact ⟨⟨r, hbehind.mem _ hr⟩, e, he, hbehind.mem _ hmem⟩
    | false =>
      -- the refusal is ignored, but not without an error
      have hignored : c.handling q = .ignored := by
        by_contra hne
        exact hrefused ⟨hgranted, hne⟩
      have hhandled := hp.2
      rw [hignored] at hhandled
      obtain ⟨e, p', hout, he, -, -⟩ := hhandled
      rw [run_refused hgranted, hout]
      exact ⟨⟨q, List.mem_cons_self⟩, e, he, List.mem_cons_of_mem _ List.mem_cons_self⟩

/-- A run with enough fuel is reported exactly if it is spared. -/
theorem Guarded.reported_iff (hp : Guarded c R p) (hfuel : (p.run answer s).value.1 ≠ .stuck) :
    Reported c (p.run answer s) ↔ Spared c answer s p := by
  unfold Spared
  cases hfirst : firstRefused c answer s p.demands with
  | some r =>
    dsimp only
    cases hr : c.handling r with
    | checked =>
      obtain ⟨hnull, herror, hharmless⟩ := hp.run_checked hfirst hr
      exact iff_of_true ⟨fun _ _ ↦ hnull, fun _ _ ↦ herror, hharmless⟩ rfl
    | unchecked =>
      obtain ⟨e, hharm, hmem⟩ := (hp.run_unchecked hfirst hr).resolve_left hfuel
      exact iff_of_false (fun h ↦ h.harmless e hmem hharm) Handling.noConfusion
    | ignored => exact absurd hr (handling_firstRefused hfirst)
  | none =>
    obtain ⟨hnull, hharmless, hrefusal⟩ := hp.run_ignored hfirst
    by_cases hmeets : Meets answer s p.demands
    · have hgranted := (run_eq_of_meets hmeets).2
      exact iff_of_true ⟨fun r hr ↦ absurd hr (hgranted r), fun r hr ↦ absurd hr (hgranted r),
        hharmless⟩ (.inl hmeets)
    · obtain ⟨⟨q, hq⟩, herror⟩ := hrefusal hmeets
      constructor
      · exact fun h ↦ .inr (hnull.mp (h.null q hq))
      · rintro (h | h)
        · exact absurd h hmeets
        · exact ⟨fun _ _ ↦ hnull.mpr h, fun _ _ ↦ herror, hharmless⟩

end Guarded

/-! ### Rules -/

section Rules

variable {c : Care ρ ε} {γ : Type} {R : α → β → Prop} {S : β → β → Prop} {p : Scan ρ ε α}
  {q : Scan ρ ε β} {f : α → Scan ρ ε β} {e : ε} {r : ρ}

/-- Scanners that differ in their values from every index. -/
def Parallel (R : α → β → Prop) (p : Scan ρ ε α) (q : Scan ρ ε β) : Prop :=
  ∀ i, Alike (Ends R) (p i) (q i)

theorem parallel_pure {a : α} {b : β} (h : R a b) :
    Parallel R (pure a : Scan ρ ε α) (pure b : Scan ρ ε β) := fun i ↦ .done (.ok h i)

theorem parallel_failWith : Parallel R (failWith e : Scan ρ ε α) (failWith e : Scan ρ ε β) :=
  fun i ↦ .out (.done (.null i))

theorem parallel_stuck : Parallel R (stuck : Scan ρ ε α) (stuck : Scan ρ ε β) :=
  fun i ↦ .done (.stuck i)

theorem parallel_bind {δ : Type} {T : γ → δ → Prop} {g : α → Scan ρ ε γ} {g' : β → Scan ρ ε δ}
    (h : Parallel R p q) (hg : ∀ a b, R a b → Parallel T (g a) (g' b)) :
    Parallel T (p >>= g) (q >>= g') := by
  intro i
  refine (h i).bind ?_
  intro x y hends
  cases hends with
  | ok h j => exact hg _ _ h j
  | null j => exact .done (.null j)
  | stuck j => exact .done (.stuck j)

/-- What follows the same scanner. -/
theorem parallel_same {δ : Type} {T : γ → δ → Prop} {g : α → Scan ρ ε γ} {g' : α → Scan ρ ε δ}
    (p : Scan ρ ε α) (hg : ∀ a, Parallel T (g a) (g' a)) : Parallel T (p >>= g) (p >>= g') := by
  intro i
  refine (alike_refl (fun _ ↦ rfl) (p i)).bind ?_
  rintro ⟨a | _ | _, j⟩ _ rfl
  · exact hg a j
  · exact .done (.null j)
  · exact .done (.stuck j)

theorem parallel_self (p : Scan ρ ε α) : Parallel Any p p := by
  intro i
  refine alike_refl ?_ (p i)
  rintro ⟨a | _ | _, j⟩
  · exact .ok trivial j
  · exact .null j
  · exact .stuck j

variable (c) in
/-- A guarded dialog from every index. -/
def Guards (R : α → α → Prop) (p : Scan ρ ε α) : Prop := ∀ i, Guarded c R (p i)

variable {R : α → α → Prop}

theorem guards_pure (a : α) : Guards c R (pure a : Scan ρ ε α) := fun _ ↦ trivial

theorem guards_fail : Guards c R (fail : Scan ρ ε α) := fun _ ↦ trivial

theorem guards_stuck : Guards c R (stuck : Scan ρ ε α) := fun _ ↦ trivial

theorem guards_pos {R : ℕ → ℕ → Prop} : Guards c R (pos : Scan ρ ε ℕ) := fun _ ↦ trivial

theorem guards_advance {R : Unit → Unit → Prop} (k : ℕ) :
    Guards c R (advance k : Scan ρ ε Unit) := fun _ ↦ trivial

theorem guards_report {R : Unit → Unit → Prop} (he : ¬ c.harm e) :
    Guards c R (report e : Scan ρ ε Unit) := fun _ ↦ ⟨he, trivial⟩

theorem guards_failWith (he : ¬ c.harm e) : Guards c R (failWith e : Scan ρ ε α) :=
  fun _ ↦ ⟨he, trivial⟩

theorem Guards.bind {p : Scan ρ ε α} (hp : Guards c R p) (hf : ∀ a, Guards c S (f a))
    (hlike : ∀ a b, R a b → Parallel S (f a) (f b)) : Guards c S (p >>= f) := by
  intro i
  refine (hp i).bind ?_ (fun _ ↦ rfl) (fun _ ↦ rfl) ?_
  · rintro ⟨a | _ | _, j⟩
    · exact hf a j
    · trivial
    · trivial
  · intro x y hends
    cases hends with
    | ok h j => exact hlike _ _ h j
    | null j => exact .done (.null j)
    | stuck j => exact .done (.stuck j)

/-- What follows a scanner that ignores no refusal. -/
theorem guards_bind (hp : Guards c Never p) (hf : ∀ a, Guards c S (f a)) : Guards c S (p >>= f) :=
  hp.bind hf fun _ _ ↦ False.elim

theorem guards_attempt {f : Option α → Scan ρ ε β} (hp : Guards c Never p)
    (hf : ∀ a, Guards c S (f a))
    (hnone : ∀ i, (f none i).Always (fun e ↦ ¬ c.harm e) (fun x ↦ x.1 = .null)) :
    Guards c S (attempt p >>= f) := by
  intro i
  have hsplit : (attempt p >>= f) i = (p i).bind fun x ↦ follow f (caught x) := by
    change ((p i).bind _).bind _ = _
    rw [bind_bind]
    rfl
  rw [hsplit]
  refine (hp i).bind ?_ hnone (fun _ ↦ rfl) ?_
  · rintro ⟨a | _ | _, j⟩
    · exact hf (some a) j
    · exact hf none j
    · trivial
  · intro x y hends
    cases hends with
    | ok h j => exact h.elim
    | null j => exact alike_of_null (hnone j)
    | stuck j => exact .done (.stuck j)

/-- A request whose refusal is checked. -/
theorem guards_checked {f : Bool → Scan ρ ε β} (hr : c.handling r = .checked)
    (hyes : Guards c S (f true)) (hno : ∀ i, GivesUp c (f false i)) :
    Guards c S (request r >>= f) := by
  intro i
  refine ⟨hyes i, ?_⟩
  rw [hr]
  exact hno i

/-- A request whose refusal is not checked. -/
theorem guards_unchecked {f : Bool → Scan ρ ε β} (hr : c.handling r = .unchecked)
    (hyes : Guards c S (f true)) (hno : ∀ i, Harms c (f false i)) :
    Guards c S (request r >>= f) := by
  intro i
  refine ⟨hyes i, ?_⟩
  rw [hr]
  exact hno i

/-- A request whose refusal is ignored, with an error. -/
theorem guards_ignored {f : Bool → Scan ρ ε β} (hr : c.handling r = .ignored)
    (hyes : Guards c S (f true)) (hno : ∀ i, GoesOn c S (f false i) (f true i)) :
    Guards c S (request r >>= f) := by
  intro i
  refine ⟨hyes i, ?_⟩
  rw [hr]
  exact hno i

/-- What follows a scanner that does not end with null unless it does harm. -/
theorem eventually_bind {hit : ε → Prop} {post : End β × ℕ → Prop} {p : Scan ρ ε α} {i : ℕ}
    (hp : (p i).Eventually hit fun x ↦ x.1 ≠ .null) (hf : ∀ a j, (f a j).Eventually hit post)
    (hstuck : ∀ j, post (.stuck, j)) : ((p >>= f) i).Eventually hit post := by
  refine Eventually.bind hp ?_
  rintro ⟨a | _ | _, j⟩ hne
  · exact hf a j
  · exact absurd rfl hne
  · exact hstuck j

theorem givesUp_failWith (herror : c.error e) (hharm : ¬ c.harm e) (i : ℕ) :
    GivesUp c ((failWith e : Scan ρ ε α) i) :=
  ⟨⟨hharm, rfl⟩, .inl herror⟩

end Rules

end Scan

end NoOsKernel.Lib
