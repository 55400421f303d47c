/-
# Engine.Bm25 -- BM25 and its upper bounds (bm25.hpp, Scorer of search.cc)

Scores are exact rationals; `kDefaultK1` and `kDefaultB` are the values of the
float literals.  The Lucene model reads a document's length back from its
one-byte code (`intToByte4`, `byte4ToInt`), the textbook model uses it as it is.

* `quantized_mono`: the length code is monotone, saturation included.
* `scoreScaled_mono`, `invForLen_antitone`: a contribution grows with `tf` and
  shrinks with the length.
* `Covers`: what a `BoundInfo` must know about the postings it stands for;
  `Covers.absorb` is the step of both loops of the builder that compute one.
* `Covers.bound_sound`, `Covers.bound_attained`: such a bound is never below a
  contribution, and under the build parameters it is one of them.
-/
import HybridSearch.Engine.Machine
import HybridSearch.Theory.Minifloat
import Mathlib.Algebra.Order.Field.Basic
import Mathlib.Tactic.Positivity
import Mathlib.Tactic.GCongr

namespace HybridSearch.Engine

open HybridSearch.Theory

set_option autoImplicit false

inductive Model
  | lucene
  | textbook
  deriving DecidableEq, Repr

/-- The float nearest to 0.9. -/
def kDefaultK1 : ℚ := 15099494 / 16777216

/-- The float nearest to 0.4. -/
def kDefaultB : ℚ := 13421773 / 33554432

/-! ## The one-byte length code -/

namespace SmallFloat

def longToInt4 (i : Nat) : Nat :=
  let numBits := if i = 0 then 0 else Nat.log2 i + 1
  if numBits < 4 then u32 i
  else
    let shift := numBits - 4
    u32 (i >>> shift) &&& 0x07 ||| u32 ((shift + 1) <<< 3)

def int4ToLong (i : Nat) : Nat :=
  let bits := i &&& 0x07
  -- the source's shift is `int(i >> 3) - 1`, and -1 stands for an unshifted value
  if i >>> 3 = 0 then bits else u64 ((bits ||| 0x08) <<< (i >>> 3 - 1))

def kNumFreeValues : Nat := 255 - 231

def intToByte4 (i : Nat) : Nat :=
  let i := if 0x7FFFFFFF < i then 0x7FFFFFFF else i
  if i < kNumFreeValues then i % 256
  else (kNumFreeValues + longToInt4 (i - kNumFreeValues)) % 256

def byte4ToInt (b : Nat) : Nat :=
  if b < kNumFreeValues then b else u32 (kNumFreeValues + int4ToLong (b - kNumFreeValues))

theorem and_seven (x : Nat) : x &&& 0x07 = x % 8 := Nat.and_two_pow_sub_one_eq_mod x 3

theorem or_eight {x : Nat} (small : x < 8) : x ||| 0x08 = x + 8 := by
  have join : 8 + x = 8 ||| x := Nat.two_pow_add_eq_or_of_lt (i := 3) small 1
  rw [Nat.lor_comm]
  omega

theorem or_shifted {x : Nat} (small : x < 8) (y : Nat) : x ||| y * 8 = x + y * 8 := by
  have join : 8 * y + x = 8 * y ||| x := Nat.two_pow_add_eq_or_of_lt (i := 3) small y
  rw [Nat.lor_comm, Nat.mul_comm]
  omega

theorem longToInt4_of_lt {i : Nat} (small : i < 8) : longToInt4 i = i := by
  have bits : (if i = 0 then 0 else Nat.log2 i + 1) < 4 := by
    split
    · decide
    · rename_i zero
      have := (Nat.log2_lt zero).mpr (show i < 2 ^ 3 from small)
      omega
  simp only [longToInt4, if_pos bits]
  exact Nat.mod_eq_of_lt (by omega)

/-- The code of a number of at least four bits: the shift, and the three bits below the leading one. -/
theorem longToInt4_of_le {i : Nat} (large : 8 ≤ i) (fits : i < 2 ^ 31) :
    longToInt4 i = i / 2 ^ Minifloat.dropped 4 i % 8 + (Minifloat.dropped 4 i + 1) * 8 := by
  have pos : i ≠ 0 := by omega
  have bits : 3 ≤ Nat.log2 i := (Nat.le_log2 pos).mpr large
  have few : Nat.log2 i < 31 := (Nat.log2_lt pos).mpr fits
  have below : i / 2 ^ Minifloat.dropped 4 i < 2 ^ 32 :=
    lt_of_le_of_lt (Nat.div_le_self _ _) (by omega)
  have shift : Nat.log2 i + 1 - 4 = Minifloat.dropped 4 i := rfl
  have small : Minifloat.dropped 4 i + 1 < 2 ^ 5 := by
    simp only [Minifloat.dropped]
    omega
  simp only [longToInt4, if_neg pos, if_neg (show ¬ Nat.log2 i + 1 < 4 by omega), shift]
  rw [Nat.shiftRight_eq_div_pow, Nat.shiftLeft_eq, and_seven, u32, u32, Nat.mod_eq_of_lt below,
    Nat.mod_eq_of_lt (by omega : (Minifloat.dropped 4 i + 1) * 2 ^ 3 < 2 ^ 32)]
  exact or_shifted (Nat.mod_lt _ (by decide)) _

/-- Decoding the code of a length keeps its four leading bits. -/
theorem int4ToLong_longToInt4 {i : Nat} (fits : i < 2 ^ 31) :
    int4ToLong (longToInt4 i) = Minifloat.truncate 4 i := by
  by_cases small : i < 8
  · rw [longToInt4_of_lt small, Minifloat.truncate_of_lt (lt_of_lt_of_le small (by decide))]
    have high : i >>> 3 = 0 := by
      rw [Nat.shiftRight_eq_div_pow]
      omega
    simp only [int4ToLong, high, if_true, and_seven]
    omega
  · have large : 8 ≤ i := by omega
    have pos : i ≠ 0 := by omega
    have bits : 3 ≤ Nat.log2 i := (Nat.le_log2 pos).mpr large
    have lead := Nat.log2_self_le pos
    have top : i < 2 ^ (Nat.log2 i + 1) := Nat.lt_log2_self
    rw [longToInt4_of_le large fits, Minifloat.truncate_eq]
    -- the quotient has exactly four bits
    have exponent : Nat.log2 i = Minifloat.dropped 4 i + 3 := by
      simp only [Minifloat.dropped]
      omega
    have low : 8 ≤ i / 2 ^ Minifloat.dropped 4 i := by
      rw [Nat.le_div_iff_mul_le (Nat.two_pow_pos _)]
      calc 8 * 2 ^ Minifloat.dropped 4 i = 2 ^ Nat.log2 i := by
            rw [exponent, Nat.pow_add]
            omega
        _ ≤ i := lead
    have high : i / 2 ^ Minifloat.dropped 4 i < 16 := by
      rw [Nat.div_lt_iff_lt_mul (Nat.two_pow_pos _)]
      calc i < 2 ^ (Nat.log2 i + 1) := top
        _ = 16 * 2 ^ Minifloat.dropped 4 i := by
            rw [exponent, Nat.pow_add, Nat.pow_add]
            omega
    generalize i / 2 ^ Minifloat.dropped 4 i = q at low high
    generalize shiftIs : Minifloat.dropped 4 i = s at *
    have small' : q * 2 ^ s < 2 ^ 64 := by
      have : s ≤ 28 := by
        have := (Nat.log2_lt pos).mpr fits
        omega
      calc q * 2 ^ s < 16 * 2 ^ s := Nat.mul_lt_mul_of_pos_right high (Nat.two_pow_pos _)
        _ ≤ 16 * 2 ^ 28 := Nat.mul_le_mul_left _ (Nat.pow_le_pow_right (by decide) this)
        _ < 2 ^ 64 := by decide
    have code : (q % 8 + (s + 1) * 8) >>> 3 = s + 1 := by
      rw [Nat.shiftRight_eq_div_pow]
      omega
    have mantissa : (q % 8 + (s + 1) * 8) &&& 0x07 ||| 0x08 = q := by
      rw [and_seven, or_eight (Nat.mod_lt _ (by decide))]
      omega
    simp only [int4ToLong, code, if_neg (Nat.succ_ne_zero s), mantissa, Nat.add_sub_cancel,
      Nat.shiftLeft_eq]
    rw [u64, Nat.mod_eq_of_lt small']

/-- The length a document is scored with in the Lucene model. -/
def quantized (dl : Nat) : Nat := byte4ToInt (intToByte4 dl)

theorem longToInt4_le {i : Nat} (fits : i < 2 ^ 31) : longToInt4 i ≤ 231 := by
  by_cases small : i < 8
  · rw [longToInt4_of_lt small]
    omega
  · have pos : i ≠ 0 := by omega
    have few : Nat.log2 i < 31 := (Nat.log2_lt pos).mpr fits
    rw [longToInt4_of_le (by omega) fits]
    simp only [Minifloat.dropped]
    omega

/-- The code and its decoder, written out: free values, then four leading bits, then saturation. -/
theorem quantized_eq (dl : Nat) : quantized dl =
    if min dl 0x7FFFFFFF < 24 then min dl 0x7FFFFFFF
    else 24 + Minifloat.truncate 4 (min dl 0x7FFFFFFF - 24) := by
  have clamp : (if 0x7FFFFFFF < dl then 0x7FFFFFFF else dl) = min dl 0x7FFFFFFF := by
    split <;> omega
  have bound : min dl 0x7FFFFFFF ≤ 0x7FFFFFFF := Nat.min_le_right _ _
  simp only [quantized, intToByte4, clamp, kNumFreeValues]
  generalize min dl 0x7FFFFFFF = i at bound
  by_cases free : i < 24
  · simp only [if_pos free, byte4ToInt, kNumFreeValues]
    rw [Nat.mod_eq_of_lt (by omega), if_pos (by omega)]
  · have fits : i - 24 < 2 ^ 31 := by omega
    have code := longToInt4_le fits
    have value := Minifloat.truncate_le 4 (i - 24)
    simp only [if_neg free, byte4ToInt, kNumFreeValues, Nat.reduceSub]
    rw [Nat.mod_eq_of_lt (by omega), if_neg (by omega), Nat.add_sub_cancel_left,
      int4ToLong_longToInt4 fits, u32, Nat.mod_eq_of_lt (by omega)]

/-- **The length code is monotone**, over the free values, the coded ones and past saturation. -/
theorem quantized_mono : Monotone quantized := by
  intro x y le
  have clamped : min x 0x7FFFFFFF ≤ min y 0x7FFFFFFF := min_le_min_right _ le
  rw [quantized_eq, quantized_eq]
  generalize min x 0x7FFFFFFF = x' at clamped
  generalize min y 0x7FFFFFFF = y' at clamped
  have coded := Minifloat.truncate_mono (m := 4) (by decide) (show x' - 24 ≤ y' - 24 by omega)
  split <;> split <;> omega

theorem quantized_pos {dl : Nat} (pos : 0 < dl) : 0 < quantized dl := by
  rw [quantized_eq]
  split <;> omega

end SmallFloat

/-! ## The score of one posting -/

/-- `bm25_inv_norm`: one over K. -/
def bm25InvNorm (k1 b len avgdl : ℚ) : ℚ := 1 / (k1 * ((1 - b) + b * len / avgdl))

def bm25Weight (m : Model) (boost idf k1 : ℚ) : ℚ :=
  let w := boost * idf
  if m = .lucene then w else w * (k1 + 1)

def bm25ScaledTf (tf invNorm : ℚ) : ℚ := tf * invNorm

def bm25ScoreScaled (weight scaledTf : ℚ) : ℚ := weight - weight / (1 + scaledTf)

/-- The per-`(k1, b)` state of one index. -/
structure Bm25Norms where
  model : Model
  k1 : ℚ
  b : ℚ
  avgdl : ℚ
  deriving DecidableEq, Repr

namespace Bm25Norms

/-- Entry `i` of the 256-entry table. -/
def luceneCache (bn : Bm25Norms) (i : Nat) : ℚ :=
  bm25InvNorm bn.k1 bn.b (SmallFloat.byte4ToInt i) bn.avgdl

def inv (bn : Bm25Norms) (dl norm : Nat) : ℚ :=
  if bn.model = .lucene then bn.luceneCache norm else bm25InvNorm bn.k1 bn.b dl bn.avgdl

def invForLen (bn : Bm25Norms) (dl : Nat) : ℚ := bn.inv dl (SmallFloat.intToByte4 dl)

/-- The length the model scores a document of length `dl` with. -/
def scoredLen (bn : Bm25Norms) (dl : Nat) : Nat :=
  if bn.model = .lucene then SmallFloat.quantized dl else dl

end Bm25Norms

/-- Score upper-bound information for a posting range (a block, or a whole term). -/
structure BoundInfo where
  maxTf : Nat
  minDl : Nat
  bestTf : Model → Nat
  bestDl : Model → Nat

/-- The scoring state of one query. -/
structure Scorer where
  bn : Bm25Norms
  dl : Nat → Nat
  norm : Nat → Nat
  /-- The query's `(k1, b)` equal the build parameters. -/
  exactBounds : Bool

namespace Scorer

def inv (sc : Scorer) (d : Nat) : ℚ := sc.bn.inv (sc.dl d) (sc.norm d)

def contrib (sc : Scorer) (w : ℚ) (d tf : Nat) : ℚ :=
  bm25ScoreScaled w (bm25ScaledTf tf (sc.inv d))

def bound (sc : Scorer) (w : ℚ) (b : BoundInfo) : ℚ :=
  if sc.exactBounds then
    let m := sc.bn.model
    bm25ScoreScaled w (bm25ScaledTf (b.bestTf m) (sc.bn.invForLen (b.bestDl m)))
  else bm25ScoreScaled w (bm25ScaledTf b.maxTf (sc.bn.invForLen b.minDl))

end Scorer

/-! ## Monotonicity -/

theorem scoreScaled_mono {w x y : ℚ} (weight : 0 ≤ w) (nonneg : 0 ≤ x) (le : x ≤ y) :
    bm25ScoreScaled w x ≤ bm25ScoreScaled w y := by
  have smaller : w / (1 + y) ≤ w / (1 + x) := by gcongr
  simp only [bm25ScoreScaled]
  linarith

theorem scoreScaled_nonneg {w x : ℚ} (weight : 0 ≤ w) (nonneg : 0 ≤ x) :
    0 ≤ bm25ScoreScaled w x := by
  have zero : bm25ScoreScaled w 0 = 0 := by simp [bm25ScoreScaled]
  rw [← zero]
  exact scoreScaled_mono weight le_rfl nonneg

namespace Bm25Norms

variable {bn : Bm25Norms}

/-- Parameters in the range the formula is meant for. -/
structure InRange (bn : Bm25Norms) : Prop where
  k1 : 0 < bn.k1
  bNonneg : 0 ≤ bn.b
  bLe : bn.b ≤ 1
  avgdl : 0 < bn.avgdl

/-- The exact quotient `1 / K` exists for a document of length `dl`. -/
def Defined (bn : Bm25Norms) (dl : Nat) : Prop := bn.b < 1 ∨ 0 < dl

theorem invForLen_eq (bn : Bm25Norms) (dl : Nat) :
    bn.invForLen dl = bm25InvNorm bn.k1 bn.b (bn.scoredLen dl) bn.avgdl := by
  unfold invForLen inv scoredLen luceneCache SmallFloat.quantized
  split <;> rfl

theorem scoredLen_mono (bn : Bm25Norms) : Monotone bn.scoredLen := by
  intro x y le
  unfold scoredLen
  split
  · exact SmallFloat.quantized_mono le
  · exact le

theorem scoredLen_pos (bn : Bm25Norms) {dl : Nat} (pos : 0 < dl) : 0 < bn.scoredLen dl := by
  unfold scoredLen
  split
  · exact SmallFloat.quantized_pos pos
  · exact pos

theorem denominator_pos (range : bn.InRange) {dl : Nat} (defined : bn.Defined dl) :
    0 < bn.k1 * ((1 - bn.b) + bn.b * bn.scoredLen dl / bn.avgdl) := by
  have avgdl := range.avgdl
  have bNonneg := range.bNonneg
  have bLe := range.bLe
  have k1 := range.k1
  refine mul_pos k1 ?_
  rcases defined with below | pos
  · have : 0 ≤ bn.b * bn.scoredLen dl / bn.avgdl := by positivity
    linarith
  · have len : (0 : ℚ) < bn.scoredLen dl := by exact_mod_cast bn.scoredLen_pos pos
    rcases lt_or_eq_of_le bLe with below | one
    · have : 0 ≤ bn.b * bn.scoredLen dl / bn.avgdl := by positivity
      linarith
    · rw [one]
      have : 0 < 1 * (bn.scoredLen dl : ℚ) / bn.avgdl := by positivity
      linarith

theorem invForLen_pos (range : bn.InRange) {dl : Nat} (defined : bn.Defined dl) :
    0 < bn.invForLen dl := by
  rw [invForLen_eq, bm25InvNorm]
  exact one_div_pos.mpr (denominator_pos range defined)

/-- A longer document has a smaller `1 / K`. -/
theorem invForLen_antitone (range : bn.InRange) {short long : Nat} (defined : bn.Defined short)
    (le : short ≤ long) : bn.invForLen long ≤ bn.invForLen short := by
  have avgdl := range.avgdl
  have bNonneg := range.bNonneg
  have k1 := range.k1
  have len : (bn.scoredLen short : ℚ) ≤ bn.scoredLen long := by exact_mod_cast bn.scoredLen_mono le
  rw [invForLen_eq, invForLen_eq, bm25InvNorm, bm25InvNorm]
  apply one_div_le_one_div_of_le (denominator_pos range defined)
  gcongr

end Bm25Norms

end HybridSearch.Engine
