import NoOsKernel.Lib.Tiling
import NoOsKernel.Trans.Session

/-!
# The layout of the weight blob

The source computes the layout three times: the sizes (`lay_size`, `weights_bytes_of`, `lay_off`) in
`usize`, the offsets of the tensors of a layer as macros over `u16` fields, so in `int`, and the
tensors behind the layers (`o_finln_g`, `o_finln_b`, `o_head`) from these macros. Here the macros are
evaluated in `int` arithmetic that may overflow (`IntOffsets`), and the tensors are shown to tile the
blob for every configuration.
-/

set_option autoImplicit false
set_option relaxedAutoImplicit false

namespace NoOsKernel.Trans

open Lib

/-! ### The offsets -/

/-- `O_WK` -/
def oWk (c : TransCfg) : ℕ := c.dModel.toNat * c.dModel.toNat

/-- `O_WV` -/
def oWv (c : TransCfg) : ℕ := 2 * oWk c

/-- `O_WO` -/
def oWo (c : TransCfg) : ℕ := 3 * oWk c

/-- `O_WUP` -/
def oWup (c : TransCfg) : ℕ := oLn1b c + c.dModel.toNat

/-- `O_WDN` -/
def oWdn (c : TransCfg) : ℕ := oWup c + c.dModel.toNat * c.dFf.toNat

/-- `o_head` -/
def oHead (c : TransCfg) : ℕ := oFinlnB c + c.dModel.toNat

/-- The ten tensors of layer `l`. -/
def layerTensors (c : TransCfg) (l : ℕ) : List Tile :=
  let D := c.dModel.toNat
  let F := c.dFf.toNat
  let o := layOff c l
  [⟨o, D * D⟩, ⟨o + oWk c, D * D⟩, ⟨o + oWv c, D * D⟩, ⟨o + oWo c, D * D⟩, ⟨o + oLn1g c, D⟩,
    ⟨o + oLn1b c, D⟩, ⟨o + oWup c, D * F⟩, ⟨o + oWdn c, F * D⟩, ⟨o + oLn2g c, D⟩, ⟨o + oLn2b c, D⟩]

/-- The header and all tensors of the blob. -/
def tensors (c : TransCfg) : List Tile :=
  let D := c.dModel.toNat
  let V := c.vocab.toNat
  [⟨0, transHdr⟩, ⟨transHdr, V * D⟩] ++ (List.range c.nLayers.toNat).flatMap (layerTensors c) ++
    [⟨oFinlnG c, D⟩, ⟨oFinlnB c, D⟩, ⟨oHead c, V * D⟩]

/-! ### The tiling -/

/-- The macros and `lay_size` agree on the size of a layer. -/
theorem laysz_eq_laySize (c : TransCfg) : laysz c = laySize c := by
  simp only [laysz, oLn2b, oLn2g, oLn1b, oLn1g, laySize]
  ring

theorem tiles_layerTensors (c : TransCfg) (l : ℕ) :
    Tiles (layOff c l) (layerTensors c l) (layOff c (l + 1)) := by
  have hnext : layOff c (l + 1) = layOff c l + laysz c := by
    rw [layOff, layOff, laysz_eq_laySize, Nat.add_one_mul, ← Nat.add_assoc]
  rw [hnext]
  refine ⟨rfl, rfl, ?_, ?_, ?_, ?_, ?_, ?_, ?_, ?_, ?_⟩
  all_goals
    simp only [Tiles, oWk, oWv, oWo, oWup, oWdn, laysz, oLn2b, oLn2g, oLn1b, oLn1g]
    ring

/-- The tensors follow one another from the header to the end of the blob. -/
theorem tiles_tensors (c : TransCfg) : Tiles 0 (tensors c) (weightsBytesOf c) := by
  have hfirst : layOff c 0 = transHdr + c.vocab.toNat * c.dModel.toNat := by
    rw [layOff, Nat.zero_mul, Nat.add_zero]
  have hlast : layOff c c.nLayers.toNat = oFinlnG c := by
    rw [layOff, oFinlnG, laysz_eq_laySize]
  have hfront : Tiles 0 [⟨0, transHdr⟩, ⟨transHdr, c.vocab.toNat * c.dModel.toNat⟩] (layOff c 0) := by
    rw [hfirst]
    simp only [Tiles, Nat.zero_add, and_self]
  have hend : Tiles (oFinlnG c) [⟨oFinlnG c, c.dModel.toNat⟩, ⟨oFinlnB c, c.dModel.toNat⟩,
      ⟨oHead c, c.vocab.toNat * c.dModel.toNat⟩] (weightsBytesOf c) := by
    refine ⟨rfl, rfl, rfl, ?_⟩
    simp only [Tiles, oFinlnG, weightsBytesOf, laysz_eq_laySize]
    ring
  have hlayers := tiles_flatMap fun l (_ : l < c.nLayers.toNat) ↦ tiles_layerTensors c l
  rw [hlast] at hlayers
  exact (hfront.append hlayers).append hend

/-! ### `int` arithmetic -/

/-- A value of an `int` expression, unless it overflows. -/
def checked (v : ℤ) : Option ℤ := if -2 ^ 31 ≤ v ∧ v < 2 ^ 31 then some v else none

def addInt (a b : Option ℤ) : Option ℤ := a.bind fun x ↦ b.bind fun y ↦ checked (x + y)

def mulInt (a b : Option ℤ) : Option ℤ := a.bind fun x ↦ b.bind fun y ↦ checked (x * y)

/-- A `u16` field, promoted. -/
def field (v : UInt16) : Option ℤ := checked v.toNat

def oWkInt (c : TransCfg) : Option ℤ := mulInt (field c.dModel) (field c.dModel)

def oWvInt (c : TransCfg) : Option ℤ := mulInt (checked 2) (oWkInt c)

def oWoInt (c : TransCfg) : Option ℤ := mulInt (checked 3) (oWkInt c)

def oLn1gInt (c : TransCfg) : Option ℤ := mulInt (checked 4) (oWkInt c)

def oLn1bInt (c : TransCfg) : Option ℤ := addInt (oLn1gInt c) (field c.dModel)

def oWupInt (c : TransCfg) : Option ℤ := addInt (oLn1bInt c) (field c.dModel)

def oWdnInt (c : TransCfg) : Option ℤ := addInt (oWupInt c) (mulInt (field c.dModel) (field c.dFf))

def oLn2gInt (c : TransCfg) : Option ℤ := addInt (oWdnInt c) (mulInt (field c.dFf) (field c.dModel))

def oLn2bInt (c : TransCfg) : Option ℤ := addInt (oLn2gInt c) (field c.dModel)

def layszInt (c : TransCfg) : Option ℤ := addInt (oLn2bInt c) (field c.dModel)

def oFinlnGInt (c : TransCfg) : Option ℤ :=
  addInt (addInt (checked transHdr) (mulInt (field c.vocab) (field c.dModel)))
    (mulInt (field c.nLayers) (layszInt c))

/-- No `int` expression of the layout overflows: they all have the values of the offsets. -/
structure IntOffsets (c : TransCfg) : Prop where
  wk : oWkInt c = some ↑(oWk c)
  wv : oWvInt c = some ↑(oWv c)
  wo : oWoInt c = some ↑(oWo c)
  ln1g : oLn1gInt c = some ↑(oLn1g c)
  ln1b : oLn1bInt c = some ↑(oLn1b c)
  wup : oWupInt c = some ↑(oWup c)
  wdn : oWdnInt c = some ↑(oWdn c)
  ln2g : oLn2gInt c = some ↑(oLn2g c)
  ln2b : oLn2bInt c = some ↑(oLn2b c)
  laysz : layszInt c = some ↑(laysz c)
  finlnG : oFinlnGInt c = some ↑(oFinlnG c)

theorem checked_natCast {n : ℕ} (hn : n < 2 ^ 31) : checked n = some (n : ℤ) :=
  if_pos ⟨by omega, by omega⟩

theorem addInt_natCast {m n : ℕ} (h : m + n < 2 ^ 31) :
    addInt (some ↑m) (some ↑n) = some ((m + n : ℕ) : ℤ) := by
  rw [addInt, Option.bind_some, Option.bind_some, ← Nat.cast_add, checked_natCast h]

theorem mulInt_natCast {m n : ℕ} (h : m * n < 2 ^ 31) :
    mulInt (some ↑m) (some ↑n) = some ((m * n : ℕ) : ℤ) := by
  rw [mulInt, Option.bind_some, Option.bind_some, ← Nat.cast_mul, checked_natCast h]

theorem field_eq (v : UInt16) : field v = some (v.toNat : ℤ) :=
  checked_natCast (v.toNat_lt.trans (by decide))

/-- If the size of the whole blob is an `int`, so is everything that leads to it. -/
theorem intOffsets_of_fits {c : TransCfg} (hfits : weightsBytesOf c < 2 ^ 31)
    (hlayer : laysz c < 2 ^ 31) : IntOffsets c := by
  have hfin : oFinlnG c ≤ weightsBytesOf c := by
    simp only [oFinlnG, weightsBytesOf, laysz_eq_laySize]
    nlinarith [Nat.zero_le (c.vocab.toNat * c.dModel.toNat)]
  have hsz : laysz c = oLn2b c + c.dModel.toNat := rfl
  have h2b : oLn2b c = oLn2g c + c.dModel.toNat := rfl
  have h2g : oLn2g c = oWdn c + c.dFf.toNat * c.dModel.toNat := rfl
  have hdn : oWdn c = oWup c + c.dModel.toNat * c.dFf.toNat := rfl
  have hup : oWup c = oLn1b c + c.dModel.toNat := rfl
  have h1b : oLn1b c = oLn1g c + c.dModel.toNat := rfl
  have h1g : oLn1g c = 4 * oWk c := rfl
  have hfg : oFinlnG c = transHdr + c.vocab.toNat * c.dModel.toNat + c.nLayers.toNat * laysz c := rfl
  have wk : oWkInt c = some ↑(oWk c) := by
    rw [oWkInt, field_eq]
    exact mulInt_natCast (show oWk c < 2 ^ 31 by omega)
  have ln1g : oLn1gInt c = some ↑(oLn1g c) := by
    rw [oLn1gInt, wk]
    exact mulInt_natCast (m := 4) (show oLn1g c < 2 ^ 31 by omega)
  have ln1b : oLn1bInt c = some ↑(oLn1b c) := by
    rw [oLn1bInt, ln1g, field_eq]
    exact addInt_natCast (by omega)
  have wup : oWupInt c = some ↑(oWup c) := by
    rw [oWupInt, ln1b, field_eq]
    exact addInt_natCast (by omega)
  have wdn : oWdnInt c = some ↑(oWdn c) := by
    rw [oWdnInt, wup, field_eq, field_eq, mulInt_natCast (by omega)]
    exact addInt_natCast (by omega)
  have ln2g : oLn2gInt c = some ↑(oLn2g c) := by
    rw [oLn2gInt, wdn, field_eq, field_eq, mulInt_natCast (by omega)]
    exact addInt_natCast (by omega)
  have ln2b : oLn2bInt c = some ↑(oLn2b c) := by
    rw [oLn2bInt, ln2g, field_eq]
    exact addInt_natCast (by omega)
  have laysz : layszInt c = some ↑(laysz c) := by
    rw [layszInt, ln2b, field_eq]
    exact addInt_natCast (by omega)
  refine ⟨wk, ?_, ?_, ln1g, ln1b, wup, wdn, ln2g, ln2b, laysz, ?_⟩
  · rw [oWvInt, wk]
    exact mulInt_natCast (m := 2) (show 2 * oWk c < 2 ^ 31 by omega)
  · rw [oWoInt, wk]
    exact mulInt_natCast (m := 3) (show 3 * oWk c < 2 ^ 31 by omega)
  · rw [oFinlnGInt, laysz, field_eq, field_eq, field_eq, mulInt_natCast (by omega),
      mulInt_natCast (by omega), checked_natCast (by decide), addInt_natCast (by omega)]
    exact addInt_natCast (by omega)

/-- Within the bounds of `trans.h` the blob is smaller than `2 ^ 31` bytes. -/
theorem weightsBytesOf_lt {c : TransCfg} (hmodel : c.dModel.toNat ≤ transDMax)
    (hff : c.dFf.toNat ≤ 16 * c.dModel.toNat) (hlayers : c.nLayers.toNat ≤ transLayersMax)
    (hvocab : c.vocab.toNat = transVocab) : weightsBytesOf c < 2 ^ 31 ∧ laysz c < 2 ^ 31 := by
  rw [transDMax] at hmodel
  have hff' : c.dFf.toNat ≤ 16384 := by omega
  have hsq : c.dModel.toNat * c.dModel.toNat ≤ 1024 * 1024 := Nat.mul_le_mul hmodel hmodel
  have hmat : c.dModel.toNat * c.dFf.toNat ≤ 1024 * 16384 := Nat.mul_le_mul hmodel hff'
  have hlay : laySize c ≤ 37752832 := by
    simp only [laySize, Nat.mul_assoc]
    omega
  have hall : c.nLayers.toNat * laySize c ≤ 32 * 37752832 := Nat.mul_le_mul hlayers hlay
  rw [laysz_eq_laySize]
  refine ⟨?_, by omega⟩
  simp only [weightsBytesOf, transHdr, hvocab, transVocab]
  omega

/-- The tensors tile the blob: they follow one another from the header to its end, overlap nowhere
and leave nothing out, and no computation of an offset overflows. -/
theorem blob_layout_tiles (c : TransCfg) (hmodel : c.dModel.toNat ≤ transDMax)
    (hff : c.dFf.toNat ≤ 16 * c.dModel.toNat) (hlayers : c.nLayers.toNat ≤ transLayersMax)
    (hvocab : c.vocab.toNat = transVocab) :
    Tiles 0 (tensors c) (weightsBytesOf c) ∧
      ((tensors c).map Tile.cells).Pairwise Disjoint ∧
      (∀ k < weightsBytesOf c, ∃ t ∈ tensors c, k ∈ t.cells) ∧
      laysz c = laySize c ∧ IntOffsets c ∧ weightsBytesOf c < 2 ^ 31 := by
  have htiles := tiles_tensors c
  obtain ⟨hfits, hlayer⟩ := weightsBytesOf_lt hmodel hff hlayers hvocab
  exact ⟨htiles, htiles.pairwise, fun k hk ↦ htiles.covers (Nat.zero_le k) hk, laysz_eq_laySize c,
    intOffsets_of_fits hfits hlayer, hfits⟩

/-- The configuration `trans_init` starts from. -/
theorem blob_layout_tiles_specCfg :
    Tiles 0 (tensors specCfg) (weightsBytesOf specCfg) ∧ IntOffsets specCfg := by
  obtain ⟨htiles, -, -, -, hint, -⟩ :=
    blob_layout_tiles specCfg (by decide) (by decide) (by decide) (by decide)
  exact ⟨htiles, hint⟩

end NoOsKernel.Trans
