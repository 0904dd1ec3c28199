import NoOsKernel.Lib.Accesses
import NoOsKernel.Trans.Bounds

/-!
# The forward pass

`kernel/noc/trans.c`: `trans_forward` and what calls it, as programs over the workspace buffers.
The arithmetic is that of the source: `i16` words, `i32` accumulators that wrap around, arithmetic
shifts. The weights are the signed bytes of the blob.
-/

set_option autoImplicit false
set_option relaxedAutoImplicit false

namespace NoOsKernel.Trans

open Lib Lib.Prog

/-! ### Fixed-point helpers -/

/-- `(i16)x` -/
def toI16 (x : ℤ) : ℤ := x.bmod (2 ^ 16)

/-- `(i32)x` -/
def toI32 (x : ℤ) : ℤ := x.bmod (2 ^ 32)

def clamp16 (v : ℤ) : ℤ := if 32767 < v then 32767 else if v < -32768 then -32768 else v

/-- `expm_tab` -/
def expmTab : ℕ → ℕ
  | 0 => 4096
  | k + 1 => if expmTab k * 4080 / 4096 < 1 then 1 else expmTab k * 4080 / 4096

def clz32 (v : BitVec 32) : ℕ :=
  let (n, v) := if v &&& 0xffff0000 = 0 then (16, v <<< 16) else (0, v)
  let (n, v) := if v &&& 0xff000000 = 0 then (n + 8, v <<< 8) else (n, v)
  let (n, v) := if v &&& 0xf0000000 = 0 then (n + 4, v <<< 4) else (n, v)
  let (n, v) := if v &&& 0xc0000000 = 0 then (n + 2, v <<< 2) else (n, v)
  if v &&& 0x80000000 = 0 then n + 1 else n

/-- The loop of `rsqrt24`, from the bit `1 << k - 1` down. -/
def rsqrtLoop : ℕ → BitVec 32 → BitVec 32 → BitVec 32
  | 0, _, r => r
  | k + 1, m, r =>
    let bit : BitVec 32 := 1 <<< k
    let t := r + bit
    if t * t ≤ m then rsqrtLoop k (m - t * t) (t + bit) else rsqrtLoop k m r

def rsqrt24 (n : BitVec 32) : ℤ :=
  let n := if n < 1 then 1 else n
  let shift := (31 - clz32 n) / 2 * 2
  let m := if shift ≤ 28 then n <<< (28 - shift) else n >>> (shift - 28)
  let r := rsqrtLoop 15 m 0
  let isr := if shift / 2 ≤ 14 then r >>> (14 - shift / 2) else r <<< (shift / 2 - 14)
  let isr := if isr < 1 then 1 else isr
  (2 ^ 24 / isr.toNat / 256 : ℕ)

/-- `gelu_tab` -/
def geluTab (k : ℕ) : ℤ :=
  let x : ℤ := k - 2048
  let sx := (x * 6971).tdiv 4096
  let az := if 2048 < |sx| then 2048 else |sx|
  let e : ℤ := expmTab az.toNat
  let sig := if 0 ≤ sx then (4096 * 4096 : ℤ).tdiv (e + 4096) else (4096 * e).tdiv (e + 4096)
  let g := (x * sig) >>> 8
  if g < 0 then 0 else if 65535 < g then 65535 else g

/-! ### Buffers -/

/-- The buffers of `alloc_workspace`, and those a training run adds. -/
inductive WsBuf
  | h0 | fwdLay | logits | scr | gup | lnout | gact | yf
  deriving DecidableEq, Repr

/-- A program over the workspace. -/
abbrev Ws := Prog WsBuf ℤ

/-- The dimensions of a pass over `C` tokens. -/
structure Dims where
  C : ℕ
  D : ℕ
  F : ℕ
  H : ℕ
  L : ℕ
  per : ℕ

/-- `laybuf_words` -/
def laybufWords (c : TransCfg) : ℕ :=
  3 * c.ctx.toNat * c.dModel.toNat + c.nHeads.toNat * c.ctx.toNat * c.ctx.toNat +
    c.ctx.toNat * c.dModel.toNat

def dims (c : TransCfg) (C : ℕ) : Dims where
  C := C
  D := c.dModel.toNat
  F := c.dFf.toNat
  H := c.nHeads.toNat
  L := c.nLayers.toNat
  per := laybufWords c

/-- What a pass reads besides the workspace: the weights, the tokens, and whether the buffers of a
training run are there. -/
structure Inputs where
  w : ℕ → ℤ
  toks : ℕ → ℕ
  stash : Bool

namespace Dims

variable (p : Dims)

/-- The offsets of `K`, `V`, `S` and `A` behind `Q` in the block of a layer. -/
def offK : ℕ := p.C * p.D
def offV : ℕ := p.C * (p.D * 2)
def offS : ℕ := p.offV + p.C * p.D
def offA : ℕ := p.offS + p.H * p.C * p.C

end Dims

/-! ### The pass -/

/-- `layernorm` of the `D` words of `b` from `off` on. -/
def layernorm (b : WsBuf) (off D : ℕ) (g bias : ℕ → ℤ) : Ws Unit := do
  let (sum, sq) ← fold D ((0 : ℤ), (0 : ℤ)) fun i acc ↦ do
    let v ← read b (off + i)
    pure (acc.1 + v, acc.2 + v * v)
  let mean := sum.tdiv D
  let var := sq.tdiv D - mean * mean
  let r := rsqrt24 (BitVec.ofInt 32 (if 0 < var then var else 1))
  loop D fun i ↦ do
    let x ← read b (off + i)
    let v := ((x - mean) * r) >>> 8
    let v := (v * g i) >>> 4 + bias i * 16
    write b (off + i) (clamp16 v)

/-- `n` words of `src` from `soff` on go to `dst` from `doff` on. -/
def copyWords (n : ℕ) (dst : WsBuf) (doff : ℕ) (src : WsBuf) (soff : ℕ) : Ws Unit :=
  loop n fun t ↦ do
    let v ← read src (soff + t)
    write dst (doff + t) v

/-- A copy into a buffer of a training run, if it is there. -/
def stashWords (x : Inputs) (n : ℕ) (dst : WsBuf) (doff : ℕ) (src : WsBuf) (soff : ℕ) : Ws Unit :=
  if x.stash then copyWords n dst doff src soff else pure ()

/-- A row of a matrix product: `n` weights at `wi` against the words of `b` from `off` on. -/
def dot (x : Inputs) (n : ℕ) (wi : ℕ → ℕ) (b : WsBuf) (off : ℕ) : Ws ℤ :=
  fold n 0 fun k a ↦ do
    let v ← read b (off + k)
    pure (toI32 (a + x.w (wi k) * v))

/-- The embedding of the tokens. -/
def embed (p : Dims) (x : Inputs) : Ws Unit :=
  loop p.C fun t ↦ loop p.D fun j ↦
    write .h0 (t * p.D + j) (toI16 (x.w (transHdr + x.toks t * p.D + j) * 16))

/-- A residual block is copied to `scr` and normalised there. -/
def preNorm (p : Dims) (x : Inputs) (src : ℕ) (gOff bOff : ℕ) : Ws Unit := do
  copyWords (p.C * p.D) .scr 0 .h0 src
  loop p.C fun t ↦
    layernorm .scr (t * p.D) p.D (fun i ↦ x.w (gOff + i)) (fun i ↦ x.w (bOff + i))

/-- The projections to `Q`, `K` and `V`. -/
def project (p : Dims) (x : Inputs) (lo lay : ℕ) : Ws Unit :=
  loop p.C fun t ↦ loop p.D fun j ↦ do
    let a ← dot x p.D (fun k ↦ lo + (k * p.D + j)) .scr (t * p.D)
    write .fwdLay (lay + (t * p.D + j)) (toI16 (a >>> 8))
    let a ← dot x p.D (fun k ↦ lo + p.D * p.D + (k * p.D + j)) .scr (t * p.D)
    write .fwdLay (lay + (p.offK + (t * p.D + j))) (toI16 (a >>> 8))
    let a ← dot x p.D (fun k ↦ lo + 2 * (p.D * p.D) + (k * p.D + j)) .scr (t * p.D)
    write .fwdLay (lay + (p.offV + (t * p.D + j))) (toI16 (a >>> 8))

/-- The score of the positions `i` and `j` under head `hd`; later positions are masked. -/
def score (p : Dims) (lay hd i j : ℕ) : Ws ℤ :=
  if i < j then pure (-32768)
  else do
    let acc ← fold (p.D / p.H) (0 : ℤ) fun k acc ↦ do
      let q ← read .fwdLay (lay + (i * p.D + (hd * (p.D / p.H) + k)))
      let kv ← read .fwdLay (lay + (p.offK + (j * p.D + (hd * (p.D / p.H) + k))))
      pure (acc + q * kv)
    let s := toI32 ((acc >>> 8) >>> 3)
    pure (if 32767 < s then 32767 else s)

/-- The entry of `S` for head `hd` and the positions `i` and `j`. -/
def Dims.at (p : Dims) (lay hd i j : ℕ) : ℕ := lay + (p.offS + (hd * p.C * p.C + (i * p.C + j)))

/-- Scores, softmax and weighted sum of one row of one head. -/
def attendRow (p : Dims) (lay hd i : ℕ) : Ws Unit := do
  let mx ← fold p.C (-32768 : ℤ) fun j mx ↦ do
    let s ← score p lay hd i j
    write .fwdLay (p.at lay hd i j) (toI16 s)
    pure (if mx < s then s else mx)
  let esum ← fold p.C (0 : ℤ) fun j esum ↦ do
    let v ← read .fwdLay (p.at lay hd i j)
    let s := v - mx
    let e : ℤ := if s ≤ -2048 then 0 else if 0 ≤ s then 4096 else expmTab (-s).toNat
    write .fwdLay (p.at lay hd i j) (toI16 e)
    pure (esum + e)
  let esum := if esum < 1 then 1 else esum
  loop p.C fun j ↦ do
    let e ← read .fwdLay (p.at lay hd i j)
    write .fwdLay (p.at lay hd i j) (toI16 (e * 4096 % 2 ^ 32 / (esum % 2 ^ 32)))
  loop (p.D / p.H) fun o ↦ do
    let acc ← fold p.C (0 : ℤ) fun j acc ↦ do
      let s ← read .fwdLay (p.at lay hd i j)
      let v ← read .fwdLay (lay + (p.offV + (j * p.D + (hd * (p.D / p.H) + o))))
      pure (acc + s * v)
    write .fwdLay (lay + (p.offA + (i * p.D + (hd * (p.D / p.H) + o)))) (toI16 (acc >>> 12))

def attention (p : Dims) (lay : ℕ) : Ws Unit :=
  loop p.H fun hd ↦ loop p.C fun i ↦ attendRow p lay hd i

/-- The output projection, added to the residual stream. -/
def outProject (p : Dims) (x : Inputs) (lo lay h h1 : ℕ) : Ws Unit :=
  loop p.C fun t ↦ loop p.D fun j ↦ do
    let acc ← dot x p.D (fun k ↦ lo + 3 * (p.D * p.D) + (k * p.D + j)) .fwdLay
      (lay + (p.offA + t * p.D))
    let r ← read .h0 (h + (t * p.D + j))
    write .h0 (h1 + (t * p.D + j)) (clamp16 (acc >>> 8 + r))

/-- The feed-forward block of one token. -/
def feedForward (p : Dims) (x : Inputs) (wup wdn l h1 t : ℕ) : Ws Unit := do
  loop p.F fun j ↦ do
    let a ← dot x p.D (fun k ↦ wup + (k * p.F + j)) .scr (t * p.D)
    let a := a >>> 8
    let a := if 2047 < a then 2047 else if a < -2048 then -2048 else a
    write .gup j (toI16 (geluTab (a + 2048).toNat >>> 4))
  stashWords x p.F .gact (l * (p.C * p.F) + t * p.F) .gup 0
  loop p.D fun j ↦ do
    let a ← dot x p.F (fun k ↦ wdn + (k * p.D + j)) .gup 0
    let r ← read .h0 (h1 + (t * p.D + j))
    write .h0 (h1 + (t * p.D + j)) (clamp16 (a >>> 8 + r))

/-- One transformer block. -/
def layer (c : TransCfg) (p : Dims) (x : Inputs) (l : ℕ) : Ws Unit := do
  let lo := layOff c l
  let lay := l * p.per
  let h := l * (p.C * p.D)
  let h1 := (l + 1) * (p.C * p.D)
  preNorm p x h (lo + oLn1g c) (lo + oLn1b c)
  stashWords x (p.C * p.D) .lnout (l * (2 * p.C * p.D)) .scr 0
  project p x lo lay
  attention p lay
  outProject p x lo lay h h1
  stashWords x (p.C * p.D) .yf (l * (p.C * p.D)) .h0 h1
  preNorm p x h1 (lo + oLn2g c) (lo + oLn2b c)
  stashWords x (p.C * p.D) .lnout (l * (2 * p.C * p.D) + p.C * p.D) .scr 0
  loop p.C fun t ↦
    feedForward p x (lo + oLn1b c + p.D) (lo + oLn1b c + p.D + p.D * p.F) l h1 t

/-- The final layer norm and the output head. -/
def outputHead (c : TransCfg) (p : Dims) (x : Inputs) : Ws Unit := do
  let fin := p.L * (p.C * p.D)
  stashWords x (p.C * p.D) .yf (p.L * (p.C * p.D)) .h0 fin
  loop p.C fun t ↦
    layernorm .h0 (fin + t * p.D) p.D (fun i ↦ x.w (oFinlnG c + i)) (fun i ↦ x.w (oFinlnB c + i))
  loop p.C fun t ↦ loop transVocab fun j ↦ do
    let a ← dot x p.D (fun k ↦ oFinlnB c + p.D + (k * transVocab + j)) .h0 (fin + t * p.D)
    write .logits (t * transVocab + j) (clamp16 (a >>> 8))

/-- `trans_forward` over the first `C` tokens. -/
def transForward (c : TransCfg) (C : ℕ) (x : Inputs) : Ws Unit := do
  embed (dims c C) x
  loop (dims c C).L fun l ↦ layer c (dims c C) x l
  outputHead c (dims c C) x

/-! ### The callers -/

/-- `softmax_v` of the row of `logits` at `row`, into `scr`. -/
def softmaxV (row : ℕ) : Ws Unit := do
  let mx ← fold transVocab (-32768 : ℤ) fun j mx ↦ do
    let v ← read .logits (row + j)
    pure (if mx < v then v else mx)
  let esum ← fold transVocab (0 : ℤ) fun j esum ↦ do
    let v ← read .logits (row + j)
    let s := v - mx
    let e : ℤ := if s ≤ -2048 then 0 else if 0 ≤ s then 4096 else expmTab (-s).toNat
    write .scr j (toI16 e)
    pure (esum + e)
  let esum := if esum < 1 then 1 else esum
  loop transVocab fun j ↦ do
    let e ← read .scr j
    write .scr j (toI16 (e * 4096 % 2 ^ 32 / esum))

/-- The byte with the largest logit in a row, the lowest one on ties; `-1` if there is none. -/
def argmax (row : ℕ) : Ws ℤ := do
  let (_, arg) ← fold transVocab ((-32768 : ℤ), (-1 : ℤ)) fun b acc ↦ do
    let l ← read .logits (row + b)
    pure (if acc.1 < l then (l, (b : ℤ)) else acc)
  pure arg

/-- `TRANS_GEN_WIN` -/
def transGenWin : ℕ := 32

/-- The tokens `trans_generate` starts with. -/
def firstWindow (seed : List Byte) : List ℕ :=
  if seed = [] then [0] else (seed.take transGenWin).map BitVec.toNat

/-- The window after a new byte. -/
def shiftWindow (toks : List ℕ) (nb : ℕ) : List ℕ :=
  if transGenWin ≤ toks.length then toks.tail ++ [nb] else toks ++ [nb]

/-- One round of `trans_generate`: the next byte, or none if it stops. -/
def generateRound (c : TransCfg) (w : ℕ → ℤ) (stash : Bool) (toks : List ℕ) : Ws (Option ℕ) := do
  transForward c toks.length ⟨w, fun i ↦ toks.getD i 0, stash⟩
  let arg ← argmax ((toks.length - 1) * transVocab)
  pure (if arg < 0 ∨ toks.getLast? = some arg.toNat then none else some arg.toNat)

/-- The loop of `trans_generate`, with room for so many more bytes. -/
def generateLoop (c : TransCfg) (w : ℕ → ℤ) (stash : Bool) : ℕ → List ℕ → Ws (List ℕ)
  | 0, toks => do
    let _ ← generateRound c w stash toks
    pure []
  | room + 1, toks => do
    let next ← generateRound c w stash toks
    match next with
    | none => pure []
    | some nb =>
      let rest ← generateLoop c w stash room (shiftWindow toks nb)
      pure (nb :: rest)

/-- `trans_generate` with its workspace there. -/
def transGenerate (c : TransCfg) (w : ℕ → ℤ) (stash : Bool) (cap : ℕ) (seed : List Byte) :
    Ws (List ℕ) :=
  if cap = 0 then pure [] else generateLoop c w stash cap (firstWindow seed)

/-- The number of tokens `trans_eval` and `trans_train` take from a tail of `nb` bytes. -/
def batchCtx (c : TransCfg) (nb : ℕ) : ℕ := if nb - 2 < c.ctx.toNat then nb - 2 else c.ctx.toNat

/-- The tokens of a tail: the last ones, with the two targets behind them. -/
def batchToks (c : TransCfg) (tail : List Byte) (i : ℕ) : ℕ :=
  (tail.getD (tail.length - (batchCtx c tail.length + 2) + i) 0).toNat

/-- The scoring of one position: its probabilities, and those of the next two bytes. -/
def scoreRow (toks : ℕ → ℕ) (t : ℕ) : Ws (ℤ × ℤ) := do
  softmaxV (t * transVocab)
  let first ← read .scr (toks (t + 1))
  let second ← read .scr (toks (t + 2))
  pure (first, second)

/-- `trans_eval` with its workspace there, up to the report. -/
def transEval (c : TransCfg) (w : ℕ → ℤ) (stash : Bool) (tail : List Byte) : Ws Unit :=
  if tail.length < 2 then pure ()
  else do
    transForward c (batchCtx c tail.length) ⟨w, batchToks c tail, stash⟩
    loop (batchCtx c tail.length) fun t ↦ do
      let _ ← scoreRow (batchToks c tail) t
      let _ ← argmax (t * transVocab)

/-- `train_pass` up to the backward pass: the forward pass and the loss of every position. -/
def trainPass (c : TransCfg) (w : ℕ → ℤ) (C : ℕ) (toks : ℕ → ℕ) : Ws Unit := do
  transForward c C ⟨w, toks, true⟩
  loop C fun t ↦ do
    let _ ← scoreRow toks t

/-- The passes of `trans_train` with its buffers there; `w k` are the weights the backward passes
before pass `k` have left. -/
def transTrain (c : TransCfg) (w : ℕ → ℕ → ℤ) (tail : List Byte) (maxPasses : ℕ) : Ws Unit :=
  if tail.length < 4 ∨ batchCtx c tail.length < 1 then pure ()
  else
    let passes := if maxPasses ≠ 0 then maxPasses else 1
    let passes := if 64 < passes then 64 else passes
    loop passes fun k ↦ trainPass c (w k) (batchCtx c tail.length) (batchToks c tail)

end NoOsKernel.Trans
