import Mathlib.Tactic.Common

/-!
# Programs over buffers, and the indices they use

A `Prog β ω α` reads and writes words of named buffers and returns a value; the indices it uses are
recorded with the buffers they belong to. `Within len p` says that no index is outside its buffer,
whatever the buffers hold, and `Uses p b i` that an index is always used. There is one rule for each
way to build a program, so that the bounds of a nest of loops are proved by going through its text.
-/

set_option autoImplicit false
set_option relaxedAutoImplicit false

namespace NoOsKernel.Lib

/-- The contents of the buffers. -/
abbrev Words (β ω : Type) := β → ℕ → ω

/-- What a program leaves: its result, the buffers, and the indices it used. -/
structure Outcome (β ω α : Type) where
  result : α
  words : Words β ω
  used : List (β × ℕ)

/-- A program over buffers. -/
def Prog (β ω α : Type) := Words β ω → Outcome β ω α

namespace Prog

variable {β ω α γ σ : Type}

instance : Monad (Prog β ω) where
  pure a := fun m ↦ ⟨a, m, []⟩
  bind p f := fun m ↦
    let first := p m
    let rest := f first.result first.words
    ⟨rest.result, rest.words, first.used ++ rest.used⟩

/-- The word of `b` at `i`. -/
def read (b : β) (i : ℕ) : Prog β ω ω := fun m ↦ ⟨m b i, m, [(b, i)]⟩

/-- `b[i] = v` -/
def write [DecidableEq β] (b : β) (i : ℕ) (v : ω) : Prog β ω Unit := fun m ↦
  ⟨(), fun b' i' ↦ if b' = b ∧ i' = i then v else m b' i', [(b, i)]⟩

/-- The counting loop `for (i = k; i < k + n; i++)` with an accumulator. -/
def foldFrom (k : ℕ) : ℕ → σ → (ℕ → σ → Prog β ω σ) → Prog β ω σ
  | 0, acc, _ => pure acc
  | n + 1, acc, body => body k acc >>= fun acc ↦ foldFrom (k + 1) n acc body

/-- The counting loop `for (i = 0; i < n; i++)` with an accumulator. -/
def fold (n : ℕ) (acc : σ) (body : ℕ → σ → Prog β ω σ) : Prog β ω σ := foldFrom 0 n acc body

/-- The counting loop `for (i = 0; i < n; i++)`. -/
def loop (n : ℕ) (body : ℕ → Prog β ω Unit) : Prog β ω Unit := fold n () fun i _ ↦ body i

/-- A program over some of the buffers, run where there are others too. -/
def inl {δ : Type} (p : Prog β ω α) : Prog (β ⊕ δ) ω α := fun m ↦
  let out := p fun b ↦ m (.inl b)
  ⟨out.result, Sum.elim out.words fun b ↦ m (.inr b), out.used.map (Prod.map .inl id)⟩

/-! ### Staying inside the buffers -/

/-- Every index is below the length of its buffer, whatever the buffers hold. -/
def Within (len : β → ℕ) (p : Prog β ω α) : Prop := ∀ m, ∀ x ∈ (p m).used, x.2 < len x.1

variable {len : β → ℕ} {p : Prog β ω α} {f : α → Prog β ω γ}

theorem within_pure (a : α) : Within len (pure a : Prog β ω α) :=
  fun _ _ hx ↦ absurd hx List.not_mem_nil

theorem within_bind (hp : Within len p) (hf : ∀ a, Within len (f a)) : Within len (p >>= f) := by
  intro m x hx
  obtain hfirst | hrest := List.mem_append.mp hx
  · exact hp m x hfirst
  · exact hf _ _ x hrest

theorem within_read {b : β} {i : ℕ} (hi : i < len b) :
    Within len (read b i : Prog β ω ω) := by
  intro m x hx
  rw [List.mem_singleton.mp hx]
  exact hi

theorem within_write [DecidableEq β] {b : β} {i : ℕ} (v : ω) (hi : i < len b) :
    Within len (write b i v) := by
  intro m x hx
  rw [List.mem_singleton.mp hx]
  exact hi

theorem within_ite {c : Prop} [Decidable c] {q : Prog β ω α} (hp : c → Within len p)
    (hq : ¬ c → Within len q) : Within len (if c then p else q) := by
  split_ifs with hc
  · exact hp hc
  · exact hq hc

theorem within_foldFrom {k n : ℕ} {body : ℕ → σ → Prog β ω σ}
    (hbody : ∀ i acc, k ≤ i → i < k + n → Within len (body i acc)) (acc : σ) :
    Within len (foldFrom k n acc body) := by
  induction n generalizing k acc with
  | zero => exact within_pure acc
  | succ n ih =>
    apply within_bind (hbody k acc (Nat.le_refl k) (by omega))
    intro acc'
    apply ih
    intro i acc'' hlow hhigh
    exact hbody i acc'' (by omega) (by omega)

theorem within_fold {n : ℕ} {body : ℕ → σ → Prog β ω σ} (acc : σ)
    (hbody : ∀ i acc, i < n → Within len (body i acc)) : Within len (fold n acc body) :=
  within_foldFrom (fun i acc _ hi ↦ hbody i acc (by omega)) acc

theorem within_loop {n : ℕ} {body : ℕ → Prog β ω Unit} (hbody : ∀ i < n, Within len (body i)) :
    Within len (loop n body) :=
  within_fold () fun i _ hi ↦ hbody i hi

/-! ### Indices that are always used -/

/-- The program uses index `i` of `b`, whatever the buffers hold. -/
def Uses (p : Prog β ω α) (b : β) (i : ℕ) : Prop := ∀ m, (b, i) ∈ (p m).used

variable {b : β} {i : ℕ}

theorem uses_bind_left (hp : Uses p b i) : Uses (p >>= f) b i :=
  fun m ↦ List.mem_append_left _ (hp m)

theorem uses_bind_right (hf : ∀ a, Uses (f a) b i) : Uses (p >>= f) b i :=
  fun _ ↦ List.mem_append_right _ (hf _ _)

theorem uses_write [DecidableEq β] (v : ω) : Uses (write b i v : Prog β ω Unit) b i :=
  fun _ ↦ List.mem_singleton_self _

theorem uses_foldFrom {k n j : ℕ} {body : ℕ → σ → Prog β ω σ} (hlow : k ≤ j) (hhigh : j < k + n)
    (hbody : ∀ acc, Uses (body j acc) b i) (acc : σ) : Uses (foldFrom k n acc body) b i := by
  induction n generalizing k acc with
  | zero => omega
  | succ n ih =>
    by_cases hj : j = k
    · subst hj
      exact uses_bind_left (hbody acc)
    · exact uses_bind_right fun acc' ↦ ih (by omega) (by omega) acc'

theorem uses_loop {n j : ℕ} {body : ℕ → Prog β ω Unit} (hj : j < n) (hbody : Uses (body j) b i) :
    Uses (loop n body) b i :=
  uses_foldFrom (Nat.zero_le j) (by omega) (fun _ ↦ hbody) ()

/-- An index that is always used has to be inside its buffer. -/
theorem Within.lt_of_uses [Inhabited ω] (hp : Within len p) (huses : Uses p b i) : i < len b :=
  hp (fun _ _ ↦ default) (b, i) (huses _)

end Prog

end NoOsKernel.Lib
