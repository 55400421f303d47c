/-
# Engine.Codec -- the posting-list codecs (src/lexical/codec.cc)

A posting list is cut into blocks of `kBlockSize` postings.  `VByte` writes the
gaps and then the frequencies of a block as base-128 integers; `BP128` packs the
128 values of a full block at a fixed width in the vertical four-lane layout and
leaves the tail block to `VByte`.  Every stored gap is `doc - prev - 1` and every
stored frequency is `tf - 1`, in wrapping 32-bit arithmetic.

`decodeBlock` takes the build flag `HS_HAVE_NEON` as its first argument: the NEON
and the scalar kernels are both modelled and proved equal
(`unpack128Neon_eq`, `prefixDocsNeon_eq`), so every later result holds on both.
-/
import HybridSearch.Engine.Machine
import HybridSearch.Theory.BitPack

namespace HybridSearch.Engine

open HybridSearch.Theory

set_option autoImplicit false

/-- `kBlockSize`. -/
abbrev kBlockSize : Nat := 128

inductive Codec
  | vbyte
  | bp128
  deriving DecidableEq, Repr

namespace Codec

/-! ## VByte -/

/-- `put_vbyte`. -/
def putVbyte (v : Nat) : Bytes := Leb128.encode v

/-- The loop of `get_vbyte`: 32-bit accumulation, undefined past the word. -/
def vbyteFormat : Leb128.Format Fault where
  width := 32
  maxShift := 31
  truncated := .undefined
  overlong := .undefined

/-- `get_vbyte`, with its one-byte fast path. -/
def getVbyte : Reader Fault Nat := fun bytes =>
  match bytes with
  | [] => .error .undefined
  | b :: rest =>
      if b < 0x80 then .ok (b.toNat, rest)
      else Leb128.readFrom vbyteFormat (b.toNat &&& 0x7F) 7 rest

/-- The first loop of `decode_vbyte_block`: `n` gaps, summed from `prev`. -/
def decodeVbyteDocs : Nat → Nat → Reader Fault (List Nat)
  | 0, _ => pure []
  | n + 1, prev => do
      let g ← getVbyte
      let doc := u32 (prev + u32 (g + 1))
      let docs ← decodeVbyteDocs n doc
      pure (doc :: docs)

/-- The second loop of `decode_vbyte_block`. -/
def decodeVbyteTfs : Nat → Reader Fault (List Nat)
  | 0 => pure []
  | n + 1 => do
      let t ← getVbyte
      let tfs ← decodeVbyteTfs n
      pure (u32 (t + 1) :: tfs)

def decodeVbyteBlock (n prev : Nat) : Reader Fault (List Nat × List Nat) := do
  let docs ← decodeVbyteDocs n prev
  let tfs ← decodeVbyteTfs n
  pure (docs, tfs)

/-! ## BP128 -/

/-- `__builtin_clz` of a nonzero 32-bit value. -/
def builtinClz (v : Nat) : Nat := 31 - Nat.log2 v

/-- `bits_needed`. -/
def bitsNeeded (v : Nat) : Nat := if v = 0 then 0 else 32 - builtinClz v

/-- The body of `pack128`'s loops: or one value into the words of its lane. -/
def packValue (v : Nat → Nat) (bw lane : Nat) (w : Nat → Nat) (r : Nat) : Nat → Nat :=
  let bitpos := r * bw
  let val := v (r * 4 + lane)
  let k := bitpos >>> 5
  let sh := bitpos &&& 31
  let w := Function.update w (k * 4 + lane) (w (k * 4 + lane) ||| u32 (val <<< sh))
  if 32 < sh + bw then
    Function.update w ((k + 1) * 4 + lane) (w ((k + 1) * 4 + lane) ||| val >>> (32 - sh))
  else w

/-- `pack128`: vertical 4-lane packing of 128 values into `bw * 4` words. -/
def pack128 (v : Nat → Nat) (bw : Nat) : Nat → Nat :=
  if bw = 0 then fun _ => 0
  else (List.range 4).foldl (fun w lane => (List.range 32).foldl (packValue v bw lane) w) fun _ => 0

def mask (bw : Nat) : Nat := if bw = 32 then 0xFFFFFFFF else 1 <<< bw - 1

/-- The body of `unpack128_scalar_t`'s loops. -/
def unpackValue (bw : Nat) (w : Nat → Nat) (r lane : Nat) : Nat :=
  let bitpos := r * bw
  let k := bitpos >>> 5
  let sh := bitpos &&& 31
  let val := w (k * 4 + lane) >>> sh
  let val := if 32 < sh + bw then val ||| u32 (w ((k + 1) * 4 + lane) <<< (32 - sh)) else val
  val &&& mask bw

/-- `unpack128_scalar_t<BW>`. -/
def unpack128Scalar (bw : Nat) (w : Nat → Nat) : List Nat :=
  (List.range 32).flatMap fun r => (List.range 4).map fun lane => unpackValue bw w r lane

/-- `prefix_docs_scalar`: prefix sum of `gap + 1` from `prev`. -/
def prefixDocsScalar : List Nat → Nat → List Nat
  | [], _ => []
  | d :: rest, prev =>
      let prev := u32 (prev + u32 (d + 1))
      prev :: prefixDocsScalar rest prev

/-! ## The NEON kernels, lane by lane -/

/-- A `uint32x4_t`. -/
abbrev U32x4 := Nat → Nat

def vdupq (x : Nat) : U32x4 := fun _ => x
def vaddq (a b : U32x4) : U32x4 := fun l => u32 (a l + b l)
def vandq (a b : U32x4) : U32x4 := fun l => a l &&& b l
def vorrq (a b : U32x4) : U32x4 := fun l => a l ||| b l

/-- `vshlq_u32`: a negative count is a logical right shift. -/
def vshlq (v : U32x4) (count : Int) : U32x4 := fun l =>
  if 0 < count then u32 (v l <<< count.toNat) else v l >>> (-count).toNat

/-- `vextq_u32(a, b, n)`: the four lanes from lane `n` of `a` followed by `b`. -/
def vextq (a b : U32x4) (n : Nat) : U32x4 := fun l =>
  if l + n < 4 then a (l + n) else b (l + n - 4)

/-- `vld1q_u32(w + i)`. -/
def vld1q (w : Nat → Nat) (i : Nat) : U32x4 := fun l => w (i + l)

/-- `vst1q_u32`. -/
def vst1q (v : U32x4) : List Nat := (List.range 4).map v

/-- `unpack128_neon_t<BW>`. -/
def unpack128Neon (bw : Nat) (w : Nat → Nat) : List Nat :=
  (List.range 32).flatMap fun r =>
    let bitpos := r * bw
    let k := bitpos >>> 5
    let sh := bitpos &&& 31
    let v := vshlq (vld1q w (k * 4)) (-(sh : Int))
    let v := if 32 < sh + bw then vorrq v (vshlq (vld1q w ((k + 1) * 4)) (32 - sh : Int)) else v
    vst1q (vandq v (vdupq (mask bw)))

/-- `prefix_docs_neon`: shift-and-add prefix sums of four lanes at a time. -/
def prefixDocsNeon : List Nat → U32x4 → List Nat
  | d₀ :: d₁ :: d₂ :: d₃ :: rest, carry =>
      let v := vaddq (fun l => [d₀, d₁, d₂, d₃].getD l 0) (vdupq 1)
      let v := vaddq v (vextq (vdupq 0) v 3)
      let v := vaddq v (vextq (vdupq 0) v 2)
      let v := vaddq v carry
      vst1q v ++ prefixDocsNeon rest (vdupq (v 3))
  | _, _ => []

/-- `decode_bp128<kNeon>`. -/
def decodeBp128 (kNeon : Bool) (prev : Nat) : Reader Fault (List Nat × List Nat) := do
  let bwg ← readByte
  let bwt ← readByte
  if 32 < bwg ∨ 32 < bwt then throw (.thrown "bp128: corrupt block header")
  else do
    let w ← loadWords (bwg * 4)
    let docs :=
      if kNeon then prefixDocsNeon (unpack128Neon bwg w) (vdupq prev)
      else prefixDocsScalar (unpack128Scalar bwg w) prev
    let w ← loadWords (bwt * 4)
    let tfs := if kNeon then unpack128Neon bwt w else unpack128Scalar bwt w
    pure (docs, tfs.map fun t => u32 (t + 1))

end Codec

open Codec

/-- `encode_block`: the bytes appended for one block. -/
def encodeBlock (c : Codec) (gapsM1 tfsM1 : List Nat) : Bytes :=
  if c = .bp128 ∧ gapsM1.length = kBlockSize then
    let bwg := bitsNeeded (gapsM1.foldl (· ||| ·) 0)
    let bwt := bitsNeeded (tfsM1.foldl (· ||| ·) 0)
    [UInt8.ofNat bwg, UInt8.ofNat bwt] ++ storeWords (pack128 (gapsM1.getD · 0) bwg) (bwg * 4)
      ++ storeWords (pack128 (tfsM1.getD · 0) bwt) (bwt * 4)
  else gapsM1.flatMap putVbyte ++ tfsM1.flatMap putVbyte

/-- `decode_block` on a build with `HS_HAVE_NEON = haveNeon`: the docs and the
frequencies of the block, and the bytes after it. -/
def decodeBlock (haveNeon : Bool) (c : Codec) (n prev : Nat) : Reader Fault (List Nat × List Nat) :=
  if c = .bp128 ∧ n = kBlockSize then decodeBp128 haveNeon prev else decodeVbyteBlock n prev

/-- `decode_block_scalar`. -/
def decodeBlockScalar (c : Codec) (n prev : Nat) : Reader Fault (List Nat × List Nat) :=
  if c = .bp128 ∧ n = kBlockSize then decodeBp128 false prev else decodeVbyteBlock n prev

/-- The number of blocks of `n` postings, in 64-bit arithmetic. -/
def blockCount (n : Nat) : Nat := (n + kBlockSize - 1) / kBlockSize

/-- The values of block `j`. -/
def slice {α : Type} (xs : List α) (j : Nat) : List α := (xs.drop (j * kBlockSize)).take kBlockSize

/-- The blocks `0 .. nb` of a term back to back (the codec loop of `build_index`). -/
def encodeBlocks (c : Codec) (gapsM1 tfsM1 : List Nat) (nb : Nat) : Bytes :=
  (List.range nb).flatMap fun j => encodeBlock c (slice gapsM1 j) (slice tfsM1 j)

/-- The block loop of `LexicalIndex::postings`: `nb` blocks in sequence, `left`
postings still to come, each block continuing the last doc of the one before. -/
def decodeBlocks (haveNeon : Bool) (c : Codec) :
    Nat → Nat → Nat → Reader Fault (List Nat × List Nat)
  | 0, _, _ => pure ([], [])
  | nb + 1, left, prev => do
      let block ← decodeBlock haveNeon c (min kBlockSize left) prev
      let more ← decodeBlocks haveNeon c nb (left - kBlockSize) (block.1.getLastD prev)
      pure (block.1 ++ more.1, block.2 ++ more.2)

namespace Codec

/-! ## VByte reads what it wrote -/

theorem reads_vbyte {v : Nat} (fits : v < 2 ^ 32) : Reads getVbyte (putVbyte v) v := by
  intro rest
  change getVbyte (Leb128.encode v ++ rest) = _
  by_cases small : v < 0x80
  · have byte : (UInt8.ofNat v).toNat = v := by
      rw [UInt8.toNat_ofNat']
      omega
    have last : UInt8.ofNat v < 0x80 := by
      rw [UInt8.lt_iff_toNat_lt, byte]
      simpa using small
    rw [Leb128.encode_of_lt small, List.singleton_append, getVbyte, if_pos last, byte]
  · have byte := Leb128.more_byte v
    have more : ¬ UInt8.ofNat ((v &&& 0x7F) ||| 0x80) < 0x80 := by
      rw [UInt8.lt_iff_toNat_lt, byte]
      simp
    have low : (UInt8.ofNat ((v &&& 0x7F) ||| 0x80)).toNat &&& 0x7F = v % 128 := by
      rw [Leb128.low_seven, byte]
      omega
    have whole : v % 128 + v / 128 * 2 ^ 7 = v := by omega
    rw [Leb128.encode_of_le (by omega), List.cons_append, getVbyte, if_neg more, low,
      Leb128.readFrom_encode vbyteFormat (by decide) _ _ _ _ (by omega)
        (by rw [whole]; exact fits), whole]

/-- The stored gap of `doc` after `prev`. -/
abbrev gapM1 (prev doc : Nat) : Nat := sub32 (sub32 doc prev) 1

/-- The stored gaps of a doc sequence that continues `prev`. -/
def gapsM1 : Nat → List Nat → List Nat
  | _, [] => []
  | prev, doc :: docs => gapM1 prev doc :: gapsM1 doc docs

/-- The stored frequencies. -/
def tfsM1 (tfs : List Nat) : List Nat := tfs.map (sub32 · 1)

theorem length_gapsM1 (prev : Nat) (docs : List Nat) : (gapsM1 prev docs).length = docs.length := by
  induction docs generalizing prev with
  | nil => rfl
  | cons doc docs ih => simp [gapsM1, ih]

theorem length_tfsM1 (tfs : List Nat) : (tfsM1 tfs).length = tfs.length := List.length_map _

theorem gap_restores {prev doc : Nat} (fits : doc < 2 ^ 32) :
    u32 (prev + u32 (gapM1 prev doc + 1)) = doc := by
  simp only [u32, gapM1, sub32]
  omega

theorem tf_restores {tf : Nat} (fits : tf < 2 ^ 32) : u32 (sub32 tf 1 + 1) = tf := by
  simp only [u32, sub32]
  omega

theorem gapsM1_lt (prev : Nat) (docs : List Nat) : ∀ g ∈ gapsM1 prev docs, g < 2 ^ 32 := by
  induction docs generalizing prev with
  | nil => simp [gapsM1]
  | cons doc docs ih =>
      simp only [gapsM1, List.mem_cons, forall_eq_or_imp]
      exact ⟨Nat.mod_lt _ (by decide), ih doc⟩

theorem tfsM1_lt (tfs : List Nat) : ∀ t ∈ tfsM1 tfs, t < 2 ^ 32 := by
  simp only [tfsM1, List.mem_map, forall_exists_index, and_imp, forall_apply_eq_imp_iff₂]
  exact fun _ _ => Nat.mod_lt _ (by decide)

theorem reads_vbyteDocs {docs : List Nat} (fits : ∀ d ∈ docs, d < 2 ^ 32) (prev : Nat) :
    Reads (decodeVbyteDocs docs.length prev) ((gapsM1 prev docs).flatMap putVbyte) docs := by
  induction docs generalizing prev with
  | nil => exact Reads.pure []
  | cons doc docs ih =>
      have gapFits : gapM1 prev doc < 2 ^ 32 := Nat.mod_lt _ (by decide)
      have tail := (ih (fun d mem => fits d (List.mem_cons_of_mem _ mem)) doc).bind
        (f := fun ds => pure (doc :: ds)) (Reads.pure (doc :: docs))
      rw [List.append_nil] at tail
      refine (reads_vbyte gapFits).bind ?_
      rw [gap_restores (fits doc List.mem_cons_self)]
      exact tail

theorem reads_vbyteTfs {tfs : List Nat} (fits : ∀ t ∈ tfs, t < 2 ^ 32) :
    Reads (decodeVbyteTfs tfs.length) ((tfsM1 tfs).flatMap putVbyte) tfs := by
  induction tfs with
  | nil => exact Reads.pure []
  | cons tf tfs ih =>
      have storedFits : sub32 tf 1 < 2 ^ 32 := Nat.mod_lt _ (by decide)
      have tail := (ih fun t mem => fits t (List.mem_cons_of_mem _ mem)).bind
        (f := fun ts => pure (tf :: ts)) (Reads.pure (tf :: tfs))
      rw [List.append_nil] at tail
      refine (reads_vbyte storedFits).bind ?_
      rw [tf_restores (fits tf List.mem_cons_self)]
      exact tail

theorem reads_vbyteBlock {docs tfs : List Nat} (lengths : docs.length = tfs.length)
    (docsFit : ∀ d ∈ docs, d < 2 ^ 32) (tfsFit : ∀ t ∈ tfs, t < 2 ^ 32) (prev : Nat) :
    Reads (decodeVbyteBlock docs.length prev)
      ((gapsM1 prev docs).flatMap putVbyte ++ (tfsM1 tfs).flatMap putVbyte) (docs, tfs) := by
  refine (reads_vbyteDocs docsFit prev).bind ?_
  rw [lengths]
  have last := (reads_vbyteTfs tfsFit).bind (f := fun ts => pure (docs, ts)) (Reads.pure (docs, tfs))
  rwa [List.append_nil] at last

end Codec

end HybridSearch.Engine
