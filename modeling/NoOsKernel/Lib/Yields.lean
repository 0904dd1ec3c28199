import NoOsKernel.Lib.Scan

/-!
# What a scanner yields

Partial correctness of programs that ask. `Dialog.Under` goes over the runs whose answers are as
`may` allows, and `Scan.Yields` says of a value a scanner ends with where it was found: nothing is
said of a run that ends with null or stuck, so there is no bound on the fuel. The rules follow the
text of a scanner.
-/

set_option autoImplicit false
set_option relaxedAutoImplicit false

namespace NoOsKernel.Lib

namespace Dialog

variable {ρ ε α β σ : Type} {may : ρ → Bool → Prop} {post : α → Prop} {post' : β → Prop}
  {p : Dialog ρ ε α} {f : α → Dialog ρ ε β}

/-- In every run whose answers are as `may` allows, the value meets `post`. -/
def Under (may : ρ → Bool → Prop) (post : α → Prop) : Dialog ρ ε α → Prop
  | done a => post a
  | out _ p => Under may post p
  | ask r k => ∀ b, may r b → Under may post (k b)

theorem Under.bind (hp : p.Under may post) (hf : ∀ a, post a → (f a).Under may post') :
    (p.bind f).Under may post' := by
  induction p with
  | done a => exact hf a hp
  | out e p ih => exact ih hp
  | ask r k ih => exact fun b hb ↦ ih b (hp b hb)

theorem Under.mono {post' : α → Prop} (hp : p.Under may post) (hpost : ∀ a, post a → post' a) :
    p.Under may post' := by
  induction p with
  | done a => exact hpost a hp
  | out e p ih => exact ih hp
  | ask r k ih => exact fun b hb ↦ ih b (hp b hb)

theorem Under.run (hp : p.Under may post) (answer : σ → ρ → Bool × σ) (s : σ)
    (hacts : ∀ r b, .asked r b ∈ (p.run answer s).acts → may r b) :
    post (p.run answer s).value := by
  induction p generalizing s with
  | done a => exact hp
  | out e p ih => exact ih hp s fun r b hb ↦ hacts r b (List.mem_cons_of_mem _ hb)
  | ask q k ih =>
    have hanswer : may q (answer s q).1 := hacts q _ List.mem_cons_self
    exact ih _ (hp _ hanswer) _ fun r b hb ↦ hacts r b (List.mem_cons_of_mem _ hb)

theorem Under.result (hp : p.Under may post) (hmay : ∀ r, may r true) : post p.result := by
  induction p with
  | done a => exact hp
  | out e p ih => exact ih hp
  | ask r k ih => exact ih true (hp true (hmay r))

/-- A run in which nothing has been refused. -/
theorem run_eq_of_granted {answer : σ → ρ → Bool × σ} {s : σ}
    (h : ∀ r, .asked r false ∉ (p.run answer s).acts) : (p.run answer s).value = p.result := by
  induction p generalizing s with
  | done a => rfl
  | out e p ih => exact ih fun r hr ↦ h r (List.mem_cons_of_mem _ hr)
  | ask q k ih =>
    have hanswer : (answer s q).1 = true := by
      cases hrefused : (answer s q).1 with
      | true => rfl
      | false => exact absurd (by simp only [run, hrefused]; exact List.mem_cons_self) (h q)
    have hrest := ih true (s := (answer s q).2) fun r hr ↦ h r (by
      simp only [run, hanswer]
      exact List.mem_cons_of_mem _ hr)
    simp only [run, hanswer]
    exact hrest

end Dialog

namespace Scan

variable {ρ ε α β : Type} {may : ρ → Bool → Prop} {ok : ε → Prop} {good : α → ℕ → Prop}
  {good' : β → ℕ → Prop} {p : Scan ρ ε α} {f : α → Scan ρ ε β} {i j : ℕ} {a : α}

/-- A value, if there is one, is as `good` says of it and of where the scanner ends. -/
def Found (good : α → ℕ → Prop) : End α × ℕ → Prop
  | (.ok a, j) => good a j
  | _ => True

/-- What a scanner finds from `i` on when the answers are as `may` allows. -/
structure Yields (may : ρ → Bool → Prop) (p : Scan ρ ε α) (i : ℕ) (good : α → ℕ → Prop) : Prop where
  under : (p i).Under may (Found good)

theorem yields_bind (hp : Yields may p i good) (hf : ∀ a j, good a j → Yields may (f a) j good') :
    Yields may (p >>= f) i good' := by
  refine ⟨Dialog.Under.bind hp.under ?_⟩
  rintro ⟨a | _ | _, j⟩ hr
  · exact (hf a j hr).under
  · exact hr
  · exact hr

theorem yields_pure (h : good a i) : Yields may (pure a : Scan ρ ε α) i good := ⟨h⟩

theorem yields_fail : Yields may (fail : Scan ρ ε α) i good := ⟨trivial⟩

theorem yields_stuck : Yields may (stuck : Scan ρ ε α) i good := ⟨trivial⟩

theorem yields_failWith {e : ε} : Yields may (failWith e : Scan ρ ε α) i good := ⟨trivial⟩

theorem yields_request {r : ρ} {g : Bool → Scan ρ ε β} (h : ∀ b, may r b → Yields may (g b) i good') :
    Yields may (request r >>= g) i good' :=
  ⟨fun b hb ↦ (h b hb).under⟩

/-- What follows a scanner that makes no request. -/
theorem Does.yields (h : Does ok p i a j) (hf : Yields may (f a) j good') :
    Yields may (p >>= f) i good' := by
  obtain ⟨es, -, hp⟩ := h.comes (f := f)
  constructor
  rw [hp]
  clear hp
  induction es with
  | nil => exact hf.under
  | cons e es ih => exact ih

/-- What follows a scanner that does not move. -/
theorem yields_behind (hp : Yields may p i fun _ j ↦ j = i) (hf : ∀ a, Yields may (f a) i good') :
    Yields may (p >>= f) i good' := by
  refine yields_bind hp ?_
  rintro a j rfl
  exact hf a

theorem yields_attempt (hp : Yields may p i good) :
    Yields may (attempt p) i fun a j ↦ ∀ x, a = some x → good x j := by
  refine ⟨Dialog.Under.bind hp.under ?_⟩
  rintro ⟨a | _ | _, j⟩ hr
  · rintro x ⟨⟩
    exact hr
  · rintro x ⟨⟩
  · exact hr

theorem Yields.mono {good₂ : α → ℕ → Prop} (h : Yields may p i good)
    (hgood : ∀ a j, good a j → good₂ a j) : Yields may p i good₂ := by
  refine ⟨Dialog.Under.mono h.under ?_⟩
  rintro ⟨a | _ | _, j⟩ hr
  · exact hgood a j hr
  · exact hr
  · exact hr

end Scan

end NoOsKernel.Lib
