import NoOsKernel.Lib.Memory
import Mathlib.Logic.Function.Basic

/-!
# Strings and copies

`kernel/kern/string.c`: `memcpy`, `memmove`, `strlen`, `strcmp` and `strcpy`. A `Tracked` memory keeps,
with its bytes, what was written through which pointer. A memory goes on without an end here, and no
string is longer than an address space.
-/

set_option autoImplicit false
set_option relaxedAutoImplicit false

namespace NoOsKernel.Kern

open Lib

/-- A memory, and what was written: the pointers and the offsets from them, the last one first. -/
structure Tracked where
  mem : Mem
  written : List (ℕ × ℕ)

/-- `p[i] = v` -/
def Tracked.put (m : Tracked) (p i : ℕ) (v : Byte) : Tracked :=
  ⟨Function.update m.mem (p + i) v, (p, i) :: m.written⟩

/-! ### `memcpy` and `memmove` -/

/-- `while (n--) *d++ = *s++`, after `i` rounds. -/
def copyForward (d s : ℕ) : ℕ → ℕ → Tracked → Tracked
  | 0, _, m => m
  | n + 1, i, m => copyForward d s n (i + 1) (m.put d i (m.mem (s + i)))

/-- `while (n--) *--d = *--s`, where the pointers are `n` behind their starts. -/
def copyBackward (d s : ℕ) : ℕ → Tracked → Tracked
  | 0, m => m
  | n + 1, m => copyBackward d s n (m.put d n (m.mem (s + n)))

def memcpy (m : Tracked) (d s n : ℕ) : Tracked := copyForward d s n 0 m

def memmove (m : Tracked) (d s n : ℕ) : Tracked :=
  if d < s then copyForward d s n 0 m else copyBackward d s n m

/-! ### Strings -/

/-- The length of an address space. -/
def addressSpace : ℕ := 2 ^ 64

/-- `while (*s++) n++`, cut off after `fuel` rounds. -/
def strlenFrom (m : Mem) : ℕ → ℕ → ℕ
  | 0, _ => 0
  | fuel + 1, a => if m a = 0 then 0 else strlenFrom m fuel (a + 1) + 1

def strlen (m : Mem) (a : ℕ) : ℕ := strlenFrom m addressSpace a

/-- `while (*a && *a == *b) { a++; b++; }` and the comparison of the two bytes behind. -/
def strcmpFrom (m m' : Mem) : ℕ → ℕ → ℕ → ℤ
  | 0, _, _ => 0
  | fuel + 1, a, b =>
    if m a ≠ 0 ∧ m a = m' b then strcmpFrom m m' fuel (a + 1) (b + 1)
    else (m a).toNat - (m' b).toNat

def strcmp (m : Mem) (a : ℕ) (m' : Mem) (b : ℕ) : ℤ := strcmpFrom m m' addressSpace a b

/-- `while ((*d++ = *src++))`, after `i` rounds. -/
def strcpyFrom (d : ℕ) (src : Mem) (s : ℕ) : ℕ → ℕ → Tracked → Tracked
  | 0, _, m => m
  | fuel + 1, i, m =>
    if src (s + i) = 0 then m.put d i (src (s + i))
    else strcpyFrom d src s fuel (i + 1) (m.put d i (src (s + i)))

/-- `strcpy(m + d, src + s)`, where the string is not in `m`. -/
def strcpy (m : Tracked) (d : ℕ) (src : Mem) (s : ℕ) : Tracked := strcpyFrom d src s addressSpace 0 m

/-! ### What a copy leaves -/

variable {m m' : Tracked} {d s n i k : ℕ}

theorem copyForward_mem (hds : d ≤ s) : (copyForward d s n i m).mem k =
    if d + i ≤ k ∧ k < d + i + n then m.mem (s + (k - d)) else m.mem k := by
  induction n generalizing i m with
  | zero =>
    rw [if_neg (by omega)]
    rfl
  | succ n ih =>
    rw [copyForward, ih]
    simp only [Tracked.put]
    obtain rfl | hne := eq_or_ne k (d + i)
    · rw [if_neg (by omega), if_pos ⟨by omega, by omega⟩, Function.update_self,
        Nat.add_sub_cancel_left]
    · rw [Function.update_of_ne hne]
      split_ifs with hnew hold hold
      · rw [Function.update_of_ne (by omega)]
      · omega
      · omega
      · rfl

theorem copyBackward_mem (hsd : s ≤ d) : (copyBackward d s n m).mem k =
    if d ≤ k ∧ k < d + n then m.mem (s + (k - d)) else m.mem k := by
  induction n generalizing m with
  | zero =>
    rw [if_neg (by omega)]
    rfl
  | succ n ih =>
    rw [copyBackward, ih]
    simp only [Tracked.put]
    obtain rfl | hne := eq_or_ne k (d + n)
    · rw [if_neg (by omega), if_pos ⟨by omega, by omega⟩, Function.update_self,
        Nat.add_sub_cancel_left]
    · rw [Function.update_of_ne hne]
      split_ifs with hnew hold hold
      · rw [Function.update_of_ne (by omega)]
      · omega
      · omega
      · rfl

/-- A move leaves at its destination what was at its source, however they overlap. -/
theorem memmove_mem (m : Tracked) (d s n k : ℕ) : (memmove m d s n).mem k =
    if d ≤ k ∧ k < d + n then m.mem (s + (k - d)) else m.mem k := by
  rw [memmove]
  by_cases hds : d < s
  · rw [if_pos hds, copyForward_mem (Nat.le_of_lt hds), Nat.add_zero]
  · rw [if_neg hds, copyBackward_mem (Nat.le_of_not_lt hds)]

theorem copyForward_written {x : ℕ × ℕ} : x ∈ (copyForward d s n i m).written ↔
    x ∈ m.written ∨ x.1 = d ∧ i ≤ x.2 ∧ x.2 < i + n := by
  induction n generalizing i m with
  | zero =>
    change x ∈ m.written ↔ _
    constructor
    · exact .inl
    · rintro (h | h)
      · exact h
      · omega
  | succ n ih =>
    rw [copyForward, ih]
    simp only [Tracked.put, List.mem_cons, Prod.ext_iff]
    constructor
    · rintro ((h | h) | h)
      · exact .inr ⟨h.1, by omega, by omega⟩
      · exact .inl h
      · exact .inr ⟨h.1, by omega, by omega⟩
    · rintro (h | h)
      · exact .inl (.inr h)
      · obtain heq | hne := eq_or_ne x.2 i
        · exact .inl (.inl ⟨h.1, heq⟩)
        · exact .inr ⟨h.1, by omega, by omega⟩

theorem copyBackward_written {x : ℕ × ℕ} : x ∈ (copyBackward d s n m).written ↔
    x ∈ m.written ∨ x.1 = d ∧ x.2 < n := by
  induction n generalizing m with
  | zero =>
    change x ∈ m.written ↔ _
    constructor
    · exact .inl
    · rintro (h | h)
      · exact h
      · omega
  | succ n ih =>
    rw [copyBackward, ih]
    simp only [Tracked.put, List.mem_cons, Prod.ext_iff]
    constructor
    · rintro ((h | h) | h)
      · exact .inr ⟨h.1, by omega⟩
      · exact .inl h
      · exact .inr ⟨h.1, by omega⟩
    · rintro (h | h)
      · exact .inl (.inr h)
      · obtain heq | hne := eq_or_ne x.2 n
        · exact .inl (.inl ⟨h.1, heq⟩)
        · exact .inr ⟨h.1, by omega⟩

theorem memmove_written {x : ℕ × ℕ} : x ∈ (memmove m d s n).written ↔
    x ∈ m.written ∨ x.1 = d ∧ x.2 < n := by
  unfold memmove
  split_ifs
  · rw [copyForward_written]
    simp only [Nat.zero_le, true_and, Nat.zero_add]
  · exact copyBackward_written

/-! ### What a string function does with a string -/

/-- The string `t` is at `a`. -/
structure StrAt (m : Mem) (a : ℕ) (t : List Byte) : Prop where
  byte : ∀ i < t.length, t[i]? = some (m (a + i))
  nonzero : ∀ c ∈ t, c ≠ 0
  terminated : m (a + t.length) = 0

variable {b b' : Mem} {a a' : ℕ} {t t' : List Byte} {c : Byte} {fuel : ℕ}

theorem StrAt.congr (h : StrAt b a t) (hbytes : ∀ i ≤ t.length, b' (a' + i) = b (a + i)) :
    StrAt b' a' t where
  byte i hi := by rw [h.byte i hi, hbytes i (Nat.le_of_lt hi)]
  nonzero := h.nonzero
  terminated := (hbytes _ (Nat.le_refl _)).trans h.terminated

theorem strAt_cons : StrAt b a (c :: t) ↔ c ≠ 0 ∧ b a = c ∧ StrAt b (a + 1) t := by
  constructor
  · intro h
    refine ⟨h.nonzero c List.mem_cons_self, ?_, ?_, ?_, ?_⟩
    · have hhead := h.byte 0 (Nat.succ_pos _)
      exact (Option.some.inj hhead).symm
    · intro i hi
      have htail := h.byte (i + 1) (Nat.succ_lt_succ hi)
      rw [List.getElem?_cons_succ] at htail
      rw [htail, show a + 1 + i = a + (i + 1) by omega]
    · exact fun x hx ↦ h.nonzero x (List.mem_cons_of_mem c hx)
    · have hend := h.terminated
      rw [List.length_cons] at hend
      rwa [show a + 1 + t.length = a + (t.length + 1) by omega]
  · rintro ⟨hc, hhead, htail⟩
    refine ⟨fun i hi ↦ ?_, fun x hx ↦ ?_, ?_⟩
    · cases i with
      | zero => rw [List.getElem?_cons_zero, Nat.add_zero, hhead]
      | succ i =>
        rw [List.getElem?_cons_succ, htail.byte i (Nat.lt_of_succ_lt_succ hi),
          show a + 1 + i = a + (i + 1) by omega]
    · obtain rfl | hx := List.mem_cons.mp hx
      · exact hc
      · exact htail.nonzero x hx
    · have hend := htail.terminated
      rwa [List.length_cons, show a + (t.length + 1) = a + 1 + t.length by omega]

theorem strAt_nil : StrAt b a [] ↔ b a = 0 :=
  ⟨fun h ↦ h.terminated, fun h ↦ ⟨fun _ hi ↦ absurd hi (Nat.not_lt_zero _),
    fun _ hc ↦ absurd hc List.not_mem_nil, h⟩⟩

theorem StrAt.strlenFrom_eq (h : StrAt b a t) (hfuel : t.length < fuel) :
    strlenFrom b fuel a = t.length := by
  induction t generalizing a fuel with
  | nil =>
    obtain ⟨fuel, rfl⟩ : ∃ f, fuel = f + 1 := ⟨fuel - 1, by omega⟩
    rw [strlenFrom, if_pos (strAt_nil.mp h), List.length_nil]
  | cons c t ih =>
    obtain ⟨hc, hhead, htail⟩ := strAt_cons.mp h
    rw [List.length_cons] at hfuel ⊢
    obtain ⟨fuel, rfl⟩ : ∃ f, fuel = f + 1 := ⟨fuel - 1, by omega⟩
    rw [strlenFrom, if_neg (hhead ▸ hc), ih htail (by omega)]

theorem strlenFrom_end (hfuel : strlenFrom b fuel a < fuel) : b (a + strlenFrom b fuel a) = 0 := by
  induction fuel generalizing a with
  | zero => exact absurd hfuel (Nat.not_lt_zero _)
  | succ fuel ih =>
    rw [strlenFrom] at hfuel ⊢
    split_ifs at hfuel ⊢ with hzero
    · exact hzero
    · rw [show a + (strlenFrom b fuel (a + 1) + 1) = a + 1 + strlenFrom b fuel (a + 1) by omega]
      exact ih (Nat.lt_of_succ_lt_succ hfuel)

/-- There is a zero where `strlen` stops. -/
theorem strlen_end (hlen : strlen b a < addressSpace) : b (a + strlen b a) = 0 :=
  strlenFrom_end hlen

theorem StrAt.strlen_eq (h : StrAt b a t) (hlen : t.length < addressSpace) :
    strlen b a = t.length :=
  h.strlenFrom_eq hlen

/-- Two bytes differ by nothing exactly if they are the same. -/
theorem byte_sub_eq_zero {c c' : Byte} : (c.toNat : ℤ) - c'.toNat = 0 ↔ c = c' := by
  rw [sub_eq_zero, Nat.cast_inj]
  exact BitVec.toNat_inj

/-- Two strings compare as equal exactly if they are. -/
theorem StrAt.strcmpFrom_eq_zero_iff (h : StrAt b a t) (h' : StrAt b' a' t')
    (hfuel : t.length < fuel) : strcmpFrom b b' fuel a a' = 0 ↔ t = t' := by
  induction t generalizing a a' t' fuel with
  | nil =>
    obtain ⟨fuel, rfl⟩ : ∃ f, fuel = f + 1 := ⟨fuel - 1, by omega⟩
    have hzero := strAt_nil.mp h
    rw [strcmpFrom, if_neg (fun hne ↦ hne.1 hzero), byte_sub_eq_zero, hzero]
    cases t' with
    | nil => exact iff_of_true (strAt_nil.mp h').symm rfl
    | cons c' t' =>
      obtain ⟨hc', hhead', -⟩ := strAt_cons.mp h'
      exact iff_of_false (fun h0 ↦ hc' (hhead' ▸ h0.symm)) (List.cons_ne_nil c' t').symm
  | cons c t ih =>
    obtain ⟨hc, hhead, htail⟩ := strAt_cons.mp h
    rw [List.length_cons] at hfuel
    obtain ⟨fuel, rfl⟩ : ∃ f, fuel = f + 1 := ⟨fuel - 1, by omega⟩
    rw [strcmpFrom, hhead]
    cases t' with
    | nil =>
      rw [strAt_nil.mp h', if_neg (fun hboth ↦ hboth.1 hboth.2), byte_sub_eq_zero]
      exact iff_of_false hc (List.cons_ne_nil c t)
    | cons c' t' =>
      obtain ⟨hc', hhead', htail'⟩ := strAt_cons.mp h'
      rw [hhead', List.cons.injEq]
      split_ifs with hboth
      · rw [ih htail htail' (by omega)]
        exact ⟨fun ht ↦ ⟨hboth.2, ht⟩, fun ht ↦ ht.2⟩
      · rw [byte_sub_eq_zero]
        exact ⟨fun heq ↦ absurd ⟨hc, heq⟩ hboth, fun ht ↦ ht.1⟩

theorem StrAt.strcmp_eq_zero_iff (h : StrAt b a t) (h' : StrAt b' a' t')
    (hlen : t.length < addressSpace) : strcmp b a b' a' = 0 ↔ t = t' :=
  h.strcmpFrom_eq_zero_iff h' hlen

theorem StrAt.strcpyFrom_mem (h : StrAt b (s + i) t) (hfuel : t.length < fuel) :
    (strcpyFrom d b s fuel i m).mem k =
      if d + i ≤ k ∧ k ≤ d + i + t.length then b (s + (k - d)) else m.mem k := by
  induction t generalizing i m fuel with
  | nil =>
    obtain ⟨fuel, rfl⟩ : ∃ f, fuel = f + 1 := ⟨fuel - 1, by omega⟩
    rw [strcpyFrom, if_pos (strAt_nil.mp h), List.length_nil, Nat.add_zero]
    simp only [Tracked.put]
    obtain rfl | hne := eq_or_ne k (d + i)
    · rw [Function.update_self, if_pos ⟨Nat.le_refl _, Nat.le_refl _⟩, Nat.add_sub_cancel_left]
    · rw [Function.update_of_ne hne, if_neg (by omega)]
  | cons c t ih =>
    obtain ⟨hc, hhead, htail⟩ := strAt_cons.mp h
    rw [List.length_cons] at hfuel ⊢
    obtain ⟨fuel, rfl⟩ : ∃ f, fuel = f + 1 := ⟨fuel - 1, by omega⟩
    rw [strcpyFrom, if_neg (hhead ▸ hc), ih (by rwa [← Nat.add_assoc]) (by omega)]
    simp only [Tracked.put]
    obtain rfl | hne := eq_or_ne k (d + i)
    · rw [if_neg (by omega), if_pos ⟨by omega, by omega⟩, Function.update_self,
        Nat.add_sub_cancel_left]
    · rw [Function.update_of_ne hne]
      split_ifs with hnew hold hold
      · rfl
      · omega
      · omega
      · rfl

/-- A copy of a string writes the string and its end. -/
theorem StrAt.strcpy_mem (h : StrAt b s t) (hlen : t.length < addressSpace) :
    (strcpy m d b s).mem k = if d ≤ k ∧ k ≤ d + t.length then b (s + (k - d)) else m.mem k :=
  StrAt.strcpyFrom_mem (i := 0) h hlen

theorem StrAt.strcpy_strAt (h : StrAt b s t) (hlen : t.length < addressSpace) :
    StrAt (strcpy m d b s).mem d t := by
  apply h.congr
  intro i hi
  rw [h.strcpy_mem hlen, if_pos ⟨by omega, by omega⟩, Nat.add_sub_cancel_left]

theorem StrAt.strcpyFrom_written {x : ℕ × ℕ} (h : StrAt b (s + i) t) (hfuel : t.length < fuel) :
    x ∈ (strcpyFrom d b s fuel i m).written ↔
      x ∈ m.written ∨ x.1 = d ∧ i ≤ x.2 ∧ x.2 ≤ i + t.length := by
  induction t generalizing i m fuel with
  | nil =>
    obtain ⟨fuel, rfl⟩ : ∃ f, fuel = f + 1 := ⟨fuel - 1, by omega⟩
    rw [strcpyFrom, if_pos (strAt_nil.mp h)]
    simp only [Tracked.put, List.mem_cons, Prod.ext_iff, List.length_nil, Nat.add_zero]
    rw [or_comm, ← le_antisymm_iff, eq_comm (a := i)]
  | cons c t ih =>
    obtain ⟨hc, hhead, htail⟩ := strAt_cons.mp h
    rw [List.length_cons] at hfuel ⊢
    obtain ⟨fuel, rfl⟩ : ∃ f, fuel = f + 1 := ⟨fuel - 1, by omega⟩
    rw [strcpyFrom, if_neg (hhead ▸ hc), ih (by rwa [← Nat.add_assoc]) (by omega)]
    simp only [Tracked.put, List.mem_cons, Prod.ext_iff]
    constructor
    · rintro ((h | h) | h)
      · exact .inr ⟨h.1, by omega, by omega⟩
      · exact .inl h
      · exact .inr ⟨h.1, by omega, by omega⟩
    · rintro (h | h)
      · exact .inl (.inr h)
      · obtain heq | hne := eq_or_ne x.2 i
        · exact .inl (.inl ⟨h.1, heq⟩)
        · exact .inr ⟨h.1, by omega, by omega⟩

theorem StrAt.strcpy_written {x : ℕ × ℕ} (h : StrAt b s t) (hlen : t.length < addressSpace) :
    x ∈ (strcpy m d b s).written ↔ x ∈ m.written ∨ x.1 = d ∧ x.2 ≤ t.length := by
  rw [strcpy, StrAt.strcpyFrom_written (i := 0) h hlen]
  simp only [Nat.zero_le, true_and, Nat.zero_add]

-- Unification of two strings must not run a loop over an address space.
attribute [irreducible] strlen strcmp strcpy

end NoOsKernel.Kern
