import NoOsKernel.Lib.Buf

/-!
# Growing code buffers

A code buffer is a list of bytes that grows at its end and has fields patched in place. `BytesAt`
says which bytes stand at a position. The laws are those an assembler needs: appended bytes stand at
the old end, a patch changes its own range only, and what stands at a position depends on that range
only. Numbers are little-endian.
-/

set_option autoImplicit false
set_option relaxedAutoImplicit false

namespace NoOsKernel.Lib

/-! ### Little-endian numbers -/

/-- The low `w` bytes of a number. -/
def leBytes : ℕ → ℕ → List Byte
  | 0, _ => []
  | w + 1, v => BitVec.ofNat 8 v :: leBytes w (v / 256)

/-- The number some bytes spell. -/
def leValue : List Byte → ℕ
  | [] => 0
  | b :: bs => b.toNat + 256 * leValue bs

@[simp] theorem length_leBytes (w v : ℕ) : (leBytes w v).length = w := by
  induction w generalizing v with
  | zero => rfl
  | succ w ih => rw [leBytes, List.length_cons, ih]

theorem leValue_leBytes (w v : ℕ) : leValue (leBytes w v) = v % 256 ^ w := by
  induction w generalizing v with
  | zero => rw [Nat.pow_zero, Nat.mod_one]; rfl
  | succ w ih =>
    have hstep : v % 256 ^ (w + 1) = v % 256 + 256 * (v / 256 % 256 ^ w) := by
      rw [Nat.pow_succ, Nat.mul_comm, Nat.mod_mul]
    rw [leBytes, leValue, ih, hstep]
    rfl

/-- The number in the `w` bytes from a position on. -/
def readLe (code : List Byte) (p w : ℕ) : ℕ := leValue ((code.drop p).take w)

/-! ### Bytes at a position -/

/-- The bytes from position `p` on are `bs`. -/
def BytesAt (code : List Byte) (p : ℕ) (bs : List Byte) : Prop :=
  ∀ k, k < bs.length → code[p + k]? = bs[k]?

variable {code code' : List Byte} {p : ℕ} {bs : List Byte}

theorem BytesAt.congr (h : BytesAt code p bs)
    (hsame : ∀ i, p ≤ i → i < p + bs.length → code'[i]? = code[i]?) : BytesAt code' p bs := by
  intro k hk
  rw [hsame (p + k) (by omega) (by omega), h k hk]

theorem bytesAt_append (code bs : List Byte) : BytesAt (code ++ bs) code.length bs := by
  intro k _
  rw [List.getElem?_append_right (by omega), Nat.add_sub_cancel_left]

theorem BytesAt.left {bs' : List Byte} (h : BytesAt code p (bs ++ bs')) : BytesAt code p bs := by
  intro k hk
  rw [h k (by rw [List.length_append]; omega), List.getElem?_append_left hk]

theorem BytesAt.right {bs' : List Byte} (h : BytesAt code p (bs ++ bs')) :
    BytesAt code (p + bs.length) bs' := by
  intro k hk
  rw [Nat.add_assoc, h (bs.length + k) (by rw [List.length_append]; omega),
    List.getElem?_append_right (by omega), Nat.add_sub_cancel_left]

theorem BytesAt.lt_length (h : BytesAt code p bs) (hne : bs ≠ []) : p < code.length := by
  have hpos : 0 < bs.length := List.length_pos_iff.mpr hne
  have hfirst := h 0 hpos
  rw [Nat.add_zero, List.getElem?_eq_getElem hpos] at hfirst
  exact (List.getElem?_eq_some_iff.mp hfirst).1

theorem BytesAt.take_drop (h : BytesAt code p bs) : (code.drop p).take bs.length = bs := by
  apply List.ext_getElem?
  intro k
  by_cases hk : k < bs.length
  · rw [List.getElem?_take_of_lt hk, List.getElem?_drop, h k hk]
  · rw [List.getElem?_eq_none (by rw [List.length_take]; omega),
      List.getElem?_eq_none (by omega)]

/-- A number written at a position is read there. -/
theorem BytesAt.readLe {w v : ℕ} (h : BytesAt code p (leBytes w v)) (hv : v < 256 ^ w) :
    readLe code p w = v := by
  have htake := h.take_drop
  rw [length_leBytes] at htake
  rw [Lib.readLe, htake, leValue_leBytes, Nat.mod_eq_of_lt hv]

/-! ### Patching -/

/-- The buffer with bytes overwritten from a position on. -/
def overwrite (code : List Byte) (p : ℕ) (bs : List Byte) : List Byte :=
  code.take p ++ bs ++ code.drop (p + bs.length)

theorem length_overwrite (h : p + bs.length ≤ code.length) :
    (overwrite code p bs).length = code.length := by
  rw [overwrite, List.length_append, List.length_append, List.length_take, List.length_drop]
  omega

theorem bytesAt_overwrite (h : p + bs.length ≤ code.length) :
    BytesAt (overwrite code p bs) p bs := by
  have hlen : (code.take p).length = p := by
    rw [List.length_take]
    omega
  have happ : BytesAt (overwrite code p bs) (code.take p).length bs := by
    refine (bytesAt_append (code.take p) bs).congr fun i _ hi ↦ ?_
    rw [overwrite, List.getElem?_append_left]
    rw [List.length_append]
    omega
  rwa [hlen] at happ

theorem getElem?_overwrite_of_lt (h : p + bs.length ≤ code.length) {i : ℕ} (hi : i < p) :
    (overwrite code p bs)[i]? = code[i]? := by
  rw [overwrite, List.append_assoc, List.getElem?_append_left, List.getElem?_take_of_lt hi]
  rw [List.length_take]
  omega

theorem getElem?_overwrite_of_le (h : p + bs.length ≤ code.length) {i : ℕ}
    (hi : p + bs.length ≤ i) : (overwrite code p bs)[i]? = code[i]? := by
  have hlen : (code.take p ++ bs).length = p + bs.length := by
    rw [List.length_append, List.length_take]
    omega
  rw [overwrite, List.getElem?_append_right (by omega), hlen, List.getElem?_drop,
    Nat.add_sub_cancel' hi]

theorem getElem?_overwrite_of_mem (h : p + bs.length ≤ code.length) {i : ℕ} (hlo : p ≤ i)
    (hhi : i < p + bs.length) : (overwrite code p bs)[i]? = bs[i - p]? := by
  have hbytes := bytesAt_overwrite h (i - p) (by omega)
  rwa [Nat.add_sub_cancel' hlo] at hbytes

/-- A patch of bytes between two parts that stay. -/
theorem overwrite_append (pre : List Byte) {old new : List Byte} (post : List Byte)
    (hlen : old.length = new.length) :
    overwrite (pre ++ old ++ post) pre.length new = pre ++ new ++ post := by
  rw [overwrite, List.append_assoc pre old, List.take_left, ← List.append_assoc, ← hlen,
    ← List.length_append, List.drop_left]

/-- Patches of disjoint ranges commute. -/
theorem overwrite_comm {q : ℕ} {bs' : List Byte} (hpq : p + bs.length ≤ q)
    (hq : q + bs'.length ≤ code.length) :
    overwrite (overwrite code p bs) q bs' = overwrite (overwrite code q bs') p bs := by
  have hp : p + bs.length ≤ code.length := by omega
  have hq' : q + bs'.length ≤ (overwrite code p bs).length := by rwa [length_overwrite hp]
  have hp' : p + bs.length ≤ (overwrite code q bs').length := by rwa [length_overwrite hq]
  apply List.ext_getElem?
  intro i
  by_cases hiq : i < q
  · rw [getElem?_overwrite_of_lt hq' hiq]
    by_cases hip : i < p
    · rw [getElem?_overwrite_of_lt hp hip, getElem?_overwrite_of_lt hp' hip,
        getElem?_overwrite_of_lt hq hiq]
    · by_cases hin : i < p + bs.length
      · rw [getElem?_overwrite_of_mem hp (by omega) hin,
          getElem?_overwrite_of_mem hp' (by omega) hin]
      · rw [getElem?_overwrite_of_le hp (by omega), getElem?_overwrite_of_le hp' (by omega),
          getElem?_overwrite_of_lt hq hiq]
  · rw [getElem?_overwrite_of_le hp' (by omega)]
    by_cases hin : i < q + bs'.length
    · rw [getElem?_overwrite_of_mem hq' (by omega) hin, getElem?_overwrite_of_mem hq (by omega) hin]
    · rw [getElem?_overwrite_of_le hq' (by omega), getElem?_overwrite_of_le hp (by omega),
        getElem?_overwrite_of_le hq (by omega)]

end NoOsKernel.Lib
