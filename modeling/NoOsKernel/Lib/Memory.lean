import Mathlib.Algebra.Order.Group.Nat
import Mathlib.Tactic.Push
import Mathlib.Tactic.Ring

/-!
# Byte-addressed memory with little-endian numbers

`Mem` is a memory of bytes at natural addresses. `Mem.load` and `Mem.store` read and write the
little-endian number of some width; the lemmas are the read-over-write laws.
-/

set_option autoImplicit false
set_option relaxedAutoImplicit false

namespace NoOsKernel.Lib

/-- A byte. -/
abbrev Byte := BitVec 8

/-- A memory. -/
abbrev Mem := ℕ → Byte

namespace Mem

/-- The little-endian number in the `w` bytes from `a` on. -/
def load : ℕ → Mem → ℕ → ℕ
  | 0, _, _ => 0
  | w + 1, m, a => (m a).toNat + 256 * load w m (a + 1)

/-- The memory with the low `w` bytes of `v` written from `a` on. -/
def store (w : ℕ) (m : Mem) (a v : ℕ) : Mem := fun k ↦
  if a ≤ k ∧ k < a + w then BitVec.ofNat 8 (v / 256 ^ (k - a)) else m k

variable {m m' : Mem} {w a : ℕ}

/-- A number depends only on the bytes of its range. -/
theorem load_congr {a' : ℕ} (hbytes : ∀ k < w, m (a + k) = m' (a' + k)) :
    load w m a = load w m' a' := by
  induction w generalizing a a' with
  | zero => rfl
  | succ w ih =>
    have htail : load w m (a + 1) = load w m' (a' + 1) := by
      apply ih
      intro k hk
      have hnext := hbytes (k + 1) (by omega)
      rwa [show a + 1 + k = a + (k + 1) by omega, show a' + 1 + k = a' + (k + 1) by omega]
    simp only [load, htail]
    rw [show m a = m' a' from hbytes 0 (by omega)]

theorem load_lt (w : ℕ) (m : Mem) (a : ℕ) : load w m a < 256 ^ w := by
  induction w generalizing a with
  | zero => simp [load]
  | succ w ih =>
    have hbyte := (m a).isLt
    have htail := ih (a + 1)
    simp only [load, pow_succ]
    omega

/-- The number a range holds, from its bytes. -/
theorem load_eq_of_bytes (v : ℕ) (hbytes : ∀ k < w, m (a + k) = BitVec.ofNat 8 (v / 256 ^ k)) :
    load w m a = v % 256 ^ w := by
  induction w generalizing a v with
  | zero => simp [load, Nat.mod_one]
  | succ w ih =>
    have hhead := hbytes 0 (by omega)
    have htail : load w m (a + 1) = v / 256 % 256 ^ w := by
      apply ih
      intro k hk
      have hnext := hbytes (k + 1) (by omega)
      rw [Nat.div_div_eq_div_mul, ← pow_succ', ← hnext]
      congr 1
      omega
    simp only [load, htail]
    rw [show a = a + 0 from rfl, hhead, pow_succ']
    simp only [pow_zero, Nat.div_one, BitVec.toNat_ofNat, Nat.reducePow]
    rw [Nat.mod_mul]

theorem store_of_not_mem {k v : ℕ} (h : k < a ∨ a + w ≤ k) : store w m a v k = m k :=
  if_neg (by omega)

theorem load_store_same (w : ℕ) (m : Mem) (a v : ℕ) : load w (store w m a v) a = v % 256 ^ w := by
  apply load_eq_of_bytes
  intro k hk
  rw [store, if_pos ⟨by omega, by omega⟩, Nat.add_sub_cancel_left]

theorem load_store_of_disjoint (w w' : ℕ) (m : Mem) (a a' v : ℕ)
    (hdisjoint : a' + w' ≤ a ∨ a + w ≤ a') :
    load w' (store w m a v) a' = load w' m a' := by
  apply load_congr
  intro k hk
  exact store_of_not_mem (by omega)

-- Unification of two reads must not run the reads.
attribute [irreducible] load store

end Mem

end NoOsKernel.Lib
