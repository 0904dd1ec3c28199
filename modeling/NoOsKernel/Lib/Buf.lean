import NoOsKernel.Lib.Memory

/-!
# Fixed-size byte buffers with little-endian fields

`Buf n` is a buffer of `n` bytes. A record laid out in memory is a buffer whose fields are read
with `Buf.load` and written with `Buf.store`; copying a record out of a larger buffer and back is
`Buf.slice` and `Buf.splice`. The lemmas are the read-over-write laws: what is read at a range after
a write to the same range, and after a write to a disjoint one.
-/

set_option autoImplicit false
set_option relaxedAutoImplicit false

namespace NoOsKernel.Lib

/-- A buffer of `n` bytes. -/
abbrev Buf (n : ℕ) := Fin n → Byte

namespace Buf

variable {n m : ℕ}

/-- The byte at an index, `0` outside the buffer. -/
def get (b : Buf n) (k : ℕ) : Byte := if h : k < n then b ⟨k, h⟩ else 0

/-- The all-zero buffer. -/
def zero (n : ℕ) : Buf n := fun _ ↦ 0

/-- The little-endian number in the `w` bytes from `off` on. -/
def load : ℕ → Buf n → ℕ → ℕ
  | 0, _, _ => 0
  | w + 1, b, off => (b.get off).toNat + 256 * load w b (off + 1)

/-- The buffer with the low `w` bytes of `v` written from `off` on. -/
def store (w : ℕ) (b : Buf n) (off v : ℕ) : Buf n := fun k ↦
  if off ≤ k ∧ (k : ℕ) < off + w then BitVec.ofNat 8 (v / 256 ^ ((k : ℕ) - off)) else b k

/-- The `m` bytes from `off` on. -/
def slice (m : ℕ) (b : Buf n) (off : ℕ) : Buf m := fun k ↦ b.get (off + k)

/-- The buffer with `s` written from `off` on. -/
def splice (b : Buf n) (off : ℕ) (s : Buf m) : Buf n := fun k ↦
  if off ≤ k ∧ (k : ℕ) < off + m then s.get ((k : ℕ) - off) else b k

/-! ### Bytes -/

theorem get_of_lt (b : Buf n) {k : ℕ} (hk : k < n) : b.get k = b ⟨k, hk⟩ := dif_pos hk

theorem get_of_le (b : Buf n) {k : ℕ} (hk : n ≤ k) : b.get k = 0 := dif_neg (by omega)

@[simp] theorem get_zero (k : ℕ) : (zero n).get k = 0 := by
  unfold get zero
  split_ifs <;> rfl

theorem get_store (w : ℕ) (b : Buf n) (off v k : ℕ) (hk : k < n) :
    (b.store w off v).get k =
      if off ≤ k ∧ k < off + w then BitVec.ofNat 8 (v / 256 ^ (k - off)) else b.get k := by
  rw [get_of_lt _ hk, get_of_lt _ hk]
  rfl

theorem get_splice (b : Buf n) (off : ℕ) (s : Buf m) (k : ℕ) (hk : k < n) :
    (b.splice off s).get k =
      if off ≤ k ∧ k < off + m then s.get (k - off) else b.get k := by
  rw [get_of_lt _ hk, get_of_lt _ hk]
  rfl

/-! ### Numbers -/

/-- The numbers of a buffer are those of a memory that holds it. -/
theorem load_eq_load (w : ℕ) (b : Buf n) (off : ℕ) : b.load w off = Mem.load w b.get off := by
  induction w generalizing off with
  | zero => simp only [load, Mem.load]
  | succ w ih => simp only [load, Mem.load, ih]

/-- A number depends only on the bytes of its range. -/
theorem load_congr {b : Buf n} {b' : Buf m} {w off off' : ℕ}
    (hbytes : ∀ k < w, b.get (off + k) = b'.get (off' + k)) : b.load w off = b'.load w off' := by
  rw [load_eq_load, load_eq_load]
  exact Mem.load_congr hbytes

theorem load_lt (w : ℕ) (b : Buf n) (off : ℕ) : b.load w off < 256 ^ w := by
  rw [load_eq_load]
  exact Mem.load_lt w b.get off

/-- The number a range holds, from its bytes. -/
theorem load_eq_of_bytes {b : Buf n} {w off : ℕ} (v : ℕ)
    (hbytes : ∀ k < w, b.get (off + k) = BitVec.ofNat 8 (v / 256 ^ k)) :
    b.load w off = v % 256 ^ w := by
  rw [load_eq_load]
  exact Mem.load_eq_of_bytes v hbytes

@[simp] theorem load_zero (w off : ℕ) : (zero n).load w off = 0 := by
  have hzero : (zero n).load w off = 0 % 256 ^ w := load_eq_of_bytes 0 (by simp)
  rw [hzero, Nat.zero_mod]

theorem load_store_same (w : ℕ) (b : Buf n) (off v : ℕ) (hoff : off + w ≤ n) :
    (b.store w off v).load w off = v % 256 ^ w := by
  apply load_eq_of_bytes
  intro k hk
  rw [get_store _ _ _ _ _ (by omega), if_pos ⟨by omega, by omega⟩, Nat.add_sub_cancel_left]

theorem load_store_of_disjoint (w w' : ℕ) (b : Buf n) (off off' v : ℕ)
    (hdisjoint : off' + w' ≤ off ∨ off + w ≤ off') :
    (b.store w off v).load w' off' = b.load w' off' := by
  apply load_congr
  intro k hk
  by_cases hin : off' + k < n
  · rw [get_store _ _ _ _ _ hin, if_neg (by omega)]
  · rw [get_of_le _ (by omega), get_of_le _ (by omega)]

/-! ### Records inside a buffer -/

theorem slice_splice_same (b : Buf n) (off : ℕ) (s : Buf m) (hoff : off + m ≤ n) :
    (b.splice off s).slice m off = s := by
  funext k
  change (b.splice off s).get (off + k) = s k
  rw [get_splice _ _ _ _ (by omega), if_pos ⟨by omega, by omega⟩, Nat.add_sub_cancel_left,
    get_of_lt _ k.isLt]

theorem slice_splice_of_disjoint (b : Buf n) (off : ℕ) (s : Buf m) (m' off' : ℕ)
    (hdisjoint : off' + m' ≤ off ∨ off + m ≤ off') :
    (b.splice off s).slice m' off' = b.slice m' off' := by
  funext k
  change (b.splice off s).get (off' + k) = b.get (off' + k)
  by_cases hin : off' + (k : ℕ) < n
  · rw [get_splice _ _ _ _ hin, if_neg (by omega)]
  · rw [get_of_le _ (by omega), get_of_le _ (by omega)]

-- Unification of two reads must not run the reads.
attribute [irreducible] load store splice slice

end Buf

end NoOsKernel.Lib
