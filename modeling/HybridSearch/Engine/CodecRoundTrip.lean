/-
# Engine.CodecRoundTrip -- decoding a posting list undoes encoding it

The BP128 kernels are the bit packing of `Theory.BitPack`, once per lane
(`view_pack128`, `unpackValue_eq`), so packing and unpacking are inverse at every
width.  With the wrapping prefix sums this gives the round trip of one block for
both codecs, and of a whole term cut into blocks: sequentially
(`reads_blocks`), and block by block from its own offset
(`decodeBlock_at_offset`).
-/
import HybridSearch.Engine.Codec

namespace HybridSearch.Engine

open HybridSearch.Theory

set_option autoImplicit false

namespace Codec

/-! ## Lanes -/

/-- The words of one lane. -/
def view (w : Nat → Nat) (lane : Nat) : Nat → Nat := fun k => w (k * 4 + lane)

theorem view_update {w : Nat → Nat} {k lane lane' x : Nat} (inLane : lane < 4) (inLane' : lane' < 4) :
    view (Function.update w (k * 4 + lane) x) lane' =
      if lane' = lane then Function.update (view w lane) k x else view w lane' := by
  funext j
  by_cases same : lane' = lane
  · subst same
    simp only [view, if_true, Function.update_apply]
    congr 1
    exact propext ⟨fun h => by omega, fun h => by rw [h]⟩
  · have apart : j * 4 + lane' ≠ k * 4 + lane := by omega
    simp only [view, if_neg same, Function.update_of_ne apart]

theorem shift_five (x : Nat) : x >>> 5 = x / 32 := Nat.shiftRight_eq_div_pow x 5

theorem and_thirtyOne (x : Nat) : x &&& 31 = x % 32 := Nat.and_two_pow_sub_one_eq_mod x 5

/-- Packing one value is one step of its lane's stream. -/
theorem view_packValue (v : Nat → Nat) (bw : Nat) (w : Nat → Nat) (r : Nat) {lane lane' : Nat}
    (inLane : lane < 4) (inLane' : lane' < 4) :
    view (packValue v bw lane w r) lane' =
      if lane' = lane then BitPack.packStep 32 bw (view v lane) (view w lane) r
      else view w lane' := by
  simp only [packValue, BitPack.packStep, shift_five, and_thirtyOne]
  by_cases same : lane' = lane
  · subst same
    have apart : (r * bw / 32 + 1) * 4 + lane' ≠ r * bw / 32 * 4 + lane' := by omega
    have apart' : r * bw / 32 + 1 ≠ r * bw / 32 := by omega
    simp only [if_true]
    split_ifs with straddles
    · simp only [view_update inLane inLane, if_true, Function.update_of_ne apart,
        Function.update_of_ne apart', view]
    · simp only [view_update inLane inLane, if_true, view]
  · split_ifs with straddles
    · rw [view_update inLane inLane', if_neg same, view_update inLane inLane', if_neg same]
    · rw [view_update inLane inLane', if_neg same]

theorem view_packLane (v : Nat → Nat) (bw : Nat) {lane lane' : Nat} (inLane : lane < 4)
    (inLane' : lane' < 4) (rows : List Nat) (w : Nat → Nat) :
    view (rows.foldl (packValue v bw lane) w) lane' =
      if lane' = lane then rows.foldl (BitPack.packStep 32 bw (view v lane)) (view w lane)
      else view w lane' := by
  induction rows generalizing w with
  | nil => by_cases same : lane' = lane <;> simp [same]
  | cons r rows ih =>
      rw [List.foldl_cons, ih, List.foldl_cons, view_packValue v bw w r inLane inLane,
        view_packValue v bw w r inLane inLane', if_pos rfl]
      split_ifs <;> rfl

/-- **Each lane of `pack128` is the packed stream of that lane's values.** -/
theorem view_pack128 (v : Nat → Nat) {bw lane : Nat} (wide : bw ≠ 0) (inLane : lane < 4) :
    view (pack128 v bw) lane = BitPack.packLane 32 bw (view v lane) 32 := by
  have lanes : List.range 4 = [0, 1, 2, 3] := by decide
  have cases4 : lane = 0 ∨ lane = 1 ∨ lane = 2 ∨ lane = 3 := by omega
  simp only [pack128, if_neg wide, lanes, List.foldl_cons, List.foldl_nil]
  rcases cases4 with rfl | rfl | rfl | rfl <;>
    simp only [view_packLane v bw (show (0 : Nat) < 4 by decide) inLane,
      view_packLane v bw (show (1 : Nat) < 4 by decide) inLane,
      view_packLane v bw (show (2 : Nat) < 4 by decide) inLane,
      view_packLane v bw (show (3 : Nat) < 4 by decide) inLane] <;>
    rfl

theorem and_mask {bw : Nat} (widthLe : bw ≤ 32) (x : Nat) : x &&& mask bw = x % 2 ^ bw := by
  unfold mask
  split_ifs with full
  · subst full
    exact Nat.and_two_pow_sub_one_eq_mod x 32
  · rw [Nat.one_shiftLeft, Nat.and_two_pow_sub_one_eq_mod]

theorem unpackValue_eq {bw : Nat} (widthLe : bw ≤ 32) (w : Nat → Nat) (r lane : Nat) :
    unpackValue bw w r lane = BitPack.unpackAt 32 bw (view w lane) r := by
  simp only [unpackValue, BitPack.unpackAt, and_mask widthLe, shift_five, and_thirtyOne, view, u32]

theorem unpackAt_zero_width (w : Nat → Nat) (r : Nat) : BitPack.unpackAt 32 0 w r = 0 := by
  simp [BitPack.unpackAt, Nat.mod_one]

set_option maxRecDepth 4000 in
/-- The rows and lanes in storage order. -/
theorem rows_lanes {α : Type} (f : Nat → Nat → α) :
    ((List.range 32).flatMap fun r => (List.range 4).map fun lane => f r lane) =
      (List.range 128).map fun i => f (i / 4) (i % 4) := rfl

/-- **Unpacking 128 packed values restores them**, at every width 0..32. -/
theorem unpack128_pack128 {v : Nat → Nat} {bw : Nat} (widthLe : bw ≤ 32)
    (fits : ∀ i < 128, v i < 2 ^ bw) {w : Nat → Nat}
    (same : ∀ i < bw * 4, w i = pack128 v bw i) :
    unpack128Scalar bw w = (List.range 128).map v := by
  unfold unpack128Scalar
  rw [rows_lanes]
  apply List.map_congr_left
  intro i mem
  have iLt : i < 128 := List.mem_range.mp mem
  have index : i / 4 * 4 + i % 4 = i := Nat.div_add_mod' i 4
  rw [unpackValue_eq widthLe]
  by_cases wide : bw = 0
  · subst wide
    rw [unpackAt_zero_width]
    have := fits i iLt
    omega
  · have laneFits : ∀ r < 32, view v (i % 4) r < 2 ^ bw := fun r lt => fits _ (by omega)
    have value := BitPack.unpackAt_packLane widthLe laneFits (show i / 4 < 32 by omega)
    rw [← view_pack128 v wide (Nat.mod_lt i (by decide))] at value
    -- the words the value is read from are among the `bw * 4` copied ones
    have start : i / 4 * bw / 32 < bw := by
      rw [Nat.div_lt_iff_lt_mul (by decide), Nat.mul_comm bw]
      exact Nat.mul_lt_mul_of_pos_right (by omega) (by omega)
    have next : 32 < i / 4 * bw % 32 + bw → i / 4 * bw / 32 + 1 < bw := by
      intro straddles
      have upper : (i / 4 + 1) * bw ≤ 32 * bw := Nat.mul_le_mul_right _ (by omega)
      rw [Nat.add_mul] at upper
      omega
    have low := same (i / 4 * bw / 32 * 4 + i % 4) (by omega)
    have reads : BitPack.unpackAt 32 bw (view w (i % 4)) (i / 4) =
        BitPack.unpackAt 32 bw (view (pack128 v bw) (i % 4)) (i / 4) := by
      simp only [BitPack.unpackAt, view, low]
      split_ifs with straddles
      · have := next straddles
        rw [same ((i / 4 * bw / 32 + 1) * 4 + i % 4) (by omega)]
      · rfl
    rw [reads, value, view, index]

/-! ## The NEON kernels compute what the scalar ones do -/

theorem unpack128Neon_eq {bw : Nat} (w : Nat → Nat) : unpack128Neon bw w = unpack128Scalar bw w := by
  unfold unpack128Neon unpack128Scalar
  apply List.flatMap_congr
  intro r _
  simp only [vst1q]
  apply List.map_congr_left
  intro lane _
  have sh : r * bw &&& 31 < 32 := by
    rw [and_thirtyOne]
    exact Nat.mod_lt _ (by decide)
  have right : ∀ i, vshlq (vld1q w i) (-((r * bw &&& 31 : Nat) : Int)) lane =
      w (i + lane) >>> (r * bw &&& 31) := by
    intro i
    unfold vshlq vld1q
    rw [if_neg (by omega)]
    simp
  have left : ∀ i, vshlq (vld1q w i) (32 - ((r * bw &&& 31 : Nat) : Int)) lane =
      u32 (w (i + lane) <<< (32 - (r * bw &&& 31))) := by
    intro i
    have count : (32 - ((r * bw &&& 31 : Nat) : Int)).toNat = 32 - (r * bw &&& 31) := by omega
    unfold vshlq vld1q
    rw [if_pos (by omega), count]
  simp only [unpackValue, vandq, vdupq]
  split_ifs <;> simp only [vorrq, right, left]

/-- The four lanes of one shift-and-add step are the four running sums. -/
theorem neon_lanes (d₀ d₁ d₂ d₃ prev : Nat) :
    let v := vaddq (fun l => [d₀, d₁, d₂, d₃].getD l 0) (vdupq 1)
    let v := vaddq v (vextq (vdupq 0) v 3)
    let v := vaddq v (vextq (vdupq 0) v 2)
    let v := vaddq v (vdupq prev)
    vst1q v = prefixDocsScalar [d₀, d₁, d₂, d₃] prev := by
  have order : List.range 4 = [0, 1, 2, 3] := by decide
  simp only [vst1q, order, List.map_cons, List.map_nil, prefixDocsScalar, List.cons.injEq, and_true]
  simp only [vaddq, vextq, vdupq, List.getD_cons_zero, List.getD_cons_succ, Nat.reduceAdd,
    Nat.reduceLT, Nat.reduceSub, if_true, if_false, u32]
  exact ⟨by omega, by omega, by omega, by omega⟩

theorem prefixDocsNeon_eq :
    ∀ (docs : List Nat) (prev : Nat), 4 ∣ docs.length →
      prefixDocsNeon docs (vdupq prev) = prefixDocsScalar docs prev
  | [], _, _ => rfl
  | [_], _, lanes => by simp at lanes
  | [_, _], _, lanes => absurd lanes (by simp)
  | [_, _, _], _, lanes => absurd lanes (by simp)
  | d₀ :: d₁ :: d₂ :: d₃ :: rest, prev, lanes => by
      have lanes : 4 ∣ rest.length := by
        simp only [List.length_cons] at lanes
        omega
      have order : List.range 4 = [0, 1, 2, 3] := by decide
      have sums := neon_lanes d₀ d₁ d₂ d₃ prev
      rw [prefixDocsNeon]
      dsimp only at sums ⊢
      rw [prefixDocsNeon_eq rest _ lanes, sums]
      simp only [vst1q, order, List.map_cons, List.map_nil, prefixDocsScalar, List.cons.injEq] at sums
      rw [sums.2.2.2.1]
      rfl

theorem length_unpack128Scalar (bw : Nat) (w : Nat → Nat) : (unpack128Scalar bw w).length = 128 := by
  unfold unpack128Scalar
  rw [rows_lanes, List.length_map, List.length_range]

/-- **One decoder**: the NEON build and the scalar build decode alike. -/
theorem decodeBlock_eq_scalar (haveNeon : Bool) (c : Codec) (n prev : Nat) :
    decodeBlock haveNeon c n prev = decodeBlockScalar c n prev := by
  have docs : ∀ bw w, prefixDocsNeon (unpack128Neon bw w) (vdupq prev) =
      prefixDocsScalar (unpack128Scalar bw w) prev := fun bw w => by
    rw [unpack128Neon_eq]
    exact prefixDocsNeon_eq _ _ (by rw [length_unpack128Scalar]; decide)
  cases haveNeon with
  | false => rfl
  | true =>
      unfold decodeBlock decodeBlockScalar decodeBp128
      simp only [if_true, if_false, Bool.false_eq_true, docs]
      simp only [unpack128Neon_eq]

/-- **The vector kernels refine the scalar ones**, on any words and not only on
what `encodeBlock` wrote: at every width they unpack alike, the shift-and-add
prefix sums are the running sums modulo `2 ^ 32`, and so a block read from any
bytes gives the same docs, frequencies and rest, or the same fault. -/
theorem neon_decodes_alike :
    (∀ bw w, unpack128Neon bw w = unpack128Scalar bw w) ∧
    (∀ bw w prev, prefixDocsNeon (unpack128Neon bw w) (vdupq prev) =
      prefixDocsScalar (unpack128Scalar bw w) prev) ∧
    ∀ c n prev bytes, decodeBlock true c n prev bytes = decodeBlockScalar c n prev bytes := by
  refine ⟨fun bw w => unpack128Neon_eq w, fun bw w prev => ?_, fun c n prev bytes => ?_⟩
  · have rows : 4 ∣ (unpack128Scalar bw w).length := by
      rw [length_unpack128Scalar]
      decide
    rw [unpack128Neon_eq]
    exact prefixDocsNeon_eq _ prev rows
  · rw [decodeBlock_eq_scalar true c n prev]

/-! ## One block -/

theorem foldl_or_ge (xs : List Nat) (acc : Nat) : acc ≤ xs.foldl (· ||| ·) acc := by
  induction xs generalizing acc with
  | nil => exact le_rfl
  | cons x xs ih => exact le_trans Nat.left_le_or (ih (acc ||| x))

theorem le_foldl_or {xs : List Nat} {x : Nat} (mem : x ∈ xs) (acc : Nat) :
    x ≤ xs.foldl (· ||| ·) acc := by
  induction xs generalizing acc with
  | nil => cases mem
  | cons y xs ih =>
      rcases List.mem_cons.mp mem with rfl | mem
      · exact le_trans Nat.right_le_or (foldl_or_ge xs _)
      · exact ih mem _

theorem foldl_or_lt {xs : List Nat} {W : Nat} (fits : ∀ x ∈ xs, x < 2 ^ W) {acc : Nat}
    (accFits : acc < 2 ^ W) : xs.foldl (· ||| ·) acc < 2 ^ W := by
  induction xs generalizing acc with
  | nil => exact accFits
  | cons x xs ih =>
      exact ih (fun y mem => fits y (List.mem_cons_of_mem _ mem))
        (Nat.or_lt_two_pow accFits (fits x List.mem_cons_self))

theorem bitsNeeded_le {v : Nat} : bitsNeeded v ≤ 32 := by
  unfold bitsNeeded
  split <;> omega

theorem lt_bitsNeeded {v : Nat} (fits : v < 2 ^ 32) : v < 2 ^ bitsNeeded v := by
  unfold bitsNeeded builtinClz
  split_ifs with zero
  · omega
  · have log : Nat.log2 v < 32 := (Nat.log2_lt zero).mpr fits
    have width : 32 - (31 - Nat.log2 v) = Nat.log2 v + 1 := by omega
    rw [width]
    exact Nat.lt_log2_self

/-- The width chosen for a block fits each of its values. -/
theorem fits_width {xs : List Nat} (fits : ∀ x ∈ xs, x < 2 ^ 32) (i : Nat) :
    xs.getD i 0 < 2 ^ bitsNeeded (xs.foldl (· ||| ·) 0) := by
  have accFits : 0 < 2 ^ 32 := by decide
  have wide := lt_bitsNeeded (foldl_or_lt fits accFits)
  rcases Nat.lt_or_ge i xs.length with inside | outside
  · rw [List.getD_eq_getElem _ _ inside]
    exact lt_of_le_of_lt (le_foldl_or (List.getElem_mem inside) 0) wide
  · rw [List.getD_eq_default _ _ outside]
    positivity

theorem pack128_lt {v : Nat → Nat} {bw : Nat} (widthLe : bw ≤ 32)
    (fits : ∀ i < 128, v i < 2 ^ bw) (i : Nat) : pack128 v bw i < 2 ^ 32 := by
  by_cases wide : bw = 0
  · simp [pack128, wide]
  · have index : i / 4 * 4 + i % 4 = i := Nat.div_add_mod' i 4
    have lane := congrFun (view_pack128 v wide (Nat.mod_lt i (show 0 < 4 by decide))) (i / 4)
    rw [view, index] at lane
    rw [lane]
    exact BitPack.packLane_lt widthLe (fun r lt => fits _ (by have := Nat.mod_lt i (show 0 < 4 by decide); omega)) _

theorem map_getD_range {xs : List Nat} : (List.range xs.length).map (xs.getD · 0) = xs := by
  apply List.ext_getElem
  · simp
  · intro i _ inside
    rw [List.getElem_map, List.getElem_range, List.getD_eq_getElem _ _ inside]

/-- Storing a packed block and unpacking the stored words restores its values. -/
theorem unpack_stored {xs : List Nat} (full : xs.length = kBlockSize) (fits : ∀ x ∈ xs, x < 2 ^ 32) :
    let bw := bitsNeeded (xs.foldl (· ||| ·) 0)
    unpack128Scalar bw (wordAt (storeWords (pack128 (xs.getD · 0) bw) (bw * 4))) = xs := by
  intro bw
  have inWidth : ∀ i < 128, xs.getD i 0 < 2 ^ bw := fun i _ => fits_width fits i
  have restored := unpack128_pack128 (v := (xs.getD · 0)) bitsNeeded_le inWidth
    (w := wordAt (storeWords (pack128 (xs.getD · 0) bw) (bw * 4)))
    fun i lt => wordAt_storeWords lt (pack128_lt bitsNeeded_le inWidth i)
  rw [restored]
  rw [kBlockSize] at full
  conv_lhs => rw [← full]
  exact map_getD_range

theorem prefixDocs_gapsM1 {docs : List Nat} (fits : ∀ d ∈ docs, d < 2 ^ 32) (prev : Nat) :
    prefixDocsScalar (gapsM1 prev docs) prev = docs := by
  induction docs generalizing prev with
  | nil => rfl
  | cons doc docs ih =>
      simp only [gapsM1, prefixDocsScalar]
      rw [gap_restores (fits doc List.mem_cons_self),
        ih (fun d mem => fits d (List.mem_cons_of_mem _ mem))]

theorem tfsM1_restores {tfs : List Nat} (fits : ∀ t ∈ tfs, t < 2 ^ 32) :
    (tfsM1 tfs).map (fun t => u32 (t + 1)) = tfs := by
  induction tfs with
  | nil => rfl
  | cons tf tfs ih =>
      have tail := ih fun t mem => fits t (List.mem_cons_of_mem _ mem)
      unfold tfsM1 at tail ⊢
      rw [List.map_cons, List.map_cons, tail, tf_restores (fits tf List.mem_cons_self)]

/-- **Round trip of one block**, for both codecs and both builds: whatever
follows the encoded block, decoding returns exactly the docs and frequencies and
stops exactly at its end. -/
theorem reads_block (haveNeon : Bool) (c : Codec) {docs tfs : List Nat}
    (lengths : docs.length = tfs.length) (docsFit : ∀ d ∈ docs, d < 2 ^ 32)
    (tfsFit : ∀ t ∈ tfs, t < 2 ^ 32) (prev : Nat) :
    Reads (decodeBlock haveNeon c docs.length prev) (encodeBlock c (gapsM1 prev docs) (tfsM1 tfs))
      (docs, tfs) := by
  rw [decodeBlock_eq_scalar]
  unfold decodeBlockScalar encodeBlock
  rw [length_gapsM1]
  split_ifs with packed
  · have gapsLen : (gapsM1 prev docs).length = kBlockSize := (length_gapsM1 _ _).trans packed.2
    have tfsLen : (tfsM1 tfs).length = kBlockSize := by rw [length_tfsM1, ← lengths, packed.2]
    have gaps := unpack_stored gapsLen (gapsM1_lt prev docs)
    have freqs := unpack_stored tfsLen (tfsM1_lt tfs)
    dsimp only at gaps freqs ⊢
    have header : bitsNeeded ((gapsM1 prev docs).foldl (· ||| ·) 0) < 256 ∧
        bitsNeeded ((tfsM1 tfs).foldl (· ||| ·) 0) < 256 :=
      ⟨lt_of_le_of_lt bitsNeeded_le (by decide), lt_of_le_of_lt bitsNeeded_le (by decide)⟩
    have narrow : ¬ (32 < bitsNeeded ((gapsM1 prev docs).foldl (· ||| ·) 0) ∨
        32 < bitsNeeded ((tfsM1 tfs).foldl (· ||| ·) 0)) := by
      have := bitsNeeded_le (v := (gapsM1 prev docs).foldl (· ||| ·) 0)
      have := bitsNeeded_le (v := (tfsM1 tfs).foldl (· ||| ·) 0)
      omega
    generalize bitsNeeded ((gapsM1 prev docs).foldl (· ||| ·) 0) = bwg at *
    generalize bitsNeeded ((tfsM1 tfs).foldl (· ||| ·) 0) = bwt at *
    have layout : ∀ s₁ s₂ : Bytes, [UInt8.ofNat bwg, UInt8.ofNat bwt] ++ s₁ ++ s₂ =
        [UInt8.ofNat bwg] ++ ([UInt8.ofNat bwt] ++ (s₁ ++ (s₂ ++ []))) := by simp
    rw [layout, decodeBp128]
    refine (reads_byte header.1).bind ((reads_byte header.2).bind ?_)
    rw [if_neg narrow]
    refine (reads_words _ _).bind ((reads_words _ _).bind ?_)
    simp only [Bool.false_eq_true, if_false]
    rw [gaps, freqs, prefixDocs_gapsM1 docsFit, tfsM1_restores tfsFit]
    exact Reads.pure _
  · exact reads_vbyteBlock lengths docsFit tfsFit prev

/-! ## A term cut into blocks -/

theorem gapsM1_append (prev : Nat) (xs ys : List Nat) :
    gapsM1 prev (xs ++ ys) = gapsM1 prev xs ++ gapsM1 (xs.getLastD prev) ys := by
  induction xs generalizing prev with
  | nil => rfl
  | cons x xs ih =>
      rw [List.cons_append, gapsM1, gapsM1, ih, List.cons_append]
      cases xs <;> rfl

theorem take_gapsM1 (prev : Nat) (docs : List Nat) (k : Nat) :
    (gapsM1 prev docs).take k = gapsM1 prev (docs.take k) := by
  induction docs generalizing prev k with
  | nil => simp [gapsM1]
  | cons doc docs ih => cases k <;> simp [gapsM1, ih]

theorem drop_gapsM1 (prev : Nat) (docs : List Nat) (k : Nat) :
    (gapsM1 prev docs).drop k = gapsM1 ((docs.take k).getLastD prev) (docs.drop k) := by
  have whole := gapsM1_append prev (docs.take k) (docs.drop k)
  rw [List.take_append_drop] at whole
  have front := congrArg (List.drop k) whole
  rw [front, ← take_gapsM1]
  rcases Nat.le_total k docs.length with le | ge
  · exact List.drop_left' (by rw [List.length_take, length_gapsM1]; omega)
  · rw [List.drop_of_length_le ge, gapsM1, List.append_nil,
      List.drop_of_length_le (by rw [List.length_take, length_gapsM1]; omega)]

/-- The doc before block `j` of a list that continues `prev`. -/
def docBefore (prev : Nat) (docs : List Nat) (j : Nat) : Nat :=
  (docs.take (j * kBlockSize)).getLastD prev

theorem docBefore_zero (prev : Nat) (docs : List Nat) : docBefore prev docs 0 = prev := by
  simp [docBefore]

theorem slice_gapsM1 (prev : Nat) (docs : List Nat) (j : Nat) :
    slice (gapsM1 prev docs) j = gapsM1 (docBefore prev docs j) (slice docs j) := by
  rw [slice, drop_gapsM1, take_gapsM1, docBefore, slice]

theorem slice_tfsM1 (tfs : List Nat) (j : Nat) : slice (tfsM1 tfs) j = tfsM1 (slice tfs j) := by
  simp [slice, tfsM1, List.map_drop, List.map_take]

theorem length_slice {α : Type} (xs : List α) (j : Nat) :
    (slice xs j).length = min kBlockSize (xs.length - j * kBlockSize) := by
  simp [slice]

theorem mem_of_mem_slice {α : Type} {xs : List α} {j : Nat} {x : α} (mem : x ∈ slice xs j) : x ∈ xs :=
  List.mem_of_mem_drop (List.mem_of_mem_take mem)

theorem slice_append_drop {α : Type} (xs : List α) (j : Nat) :
    slice xs j ++ xs.drop ((j + 1) * kBlockSize) = xs.drop (j * kBlockSize) := by
  have next : (j + 1) * kBlockSize = j * kBlockSize + kBlockSize := by ring
  rw [slice, next, ← List.drop_drop, List.take_append_drop]

theorem docBefore_succ (prev : Nat) (docs : List Nat) (j : Nat) :
    docBefore prev docs (j + 1) = (slice docs j).getLastD (docBefore prev docs j) := by
  have next : (j + 1) * kBlockSize = j * kBlockSize + kBlockSize := by ring
  rw [docBefore, next, List.take_add, docBefore, slice]
  cases h : (List.take kBlockSize (List.drop (j * kBlockSize) docs)).getLast? with
  | none =>
      rw [List.getLast?_eq_none_iff.mp h, List.append_nil]
      rfl
  | some x => simp [List.getLastD_eq_getLast?, List.getLast?_append, h]

section Term

variable (haveNeon : Bool) (c : Codec) {docs tfs : List Nat}

/-- The encoded form of block `j` of a posting list, as the builder writes it. -/
abbrev encodedBlock (docs tfs : List Nat) (j : Nat) : Bytes :=
  encodeBlock c (slice (gapsM1 uint32Max docs) j) (slice (tfsM1 tfs) j)

theorem reads_blockOf (lengths : docs.length = tfs.length) (docsFit : ∀ d ∈ docs, d < 2 ^ 32)
    (tfsFit : ∀ t ∈ tfs, t < 2 ^ 32) (j : Nat) :
    Reads
      (decodeBlock haveNeon c (min kBlockSize (docs.length - j * kBlockSize))
        (docBefore uint32Max docs j))
      (encodedBlock c docs tfs j) (slice docs j, slice tfs j) := by
  rw [encodedBlock, slice_gapsM1, slice_tfsM1, ← length_slice]
  exact reads_block haveNeon c (by rw [length_slice, length_slice, lengths])
    (fun d mem => docsFit d (mem_of_mem_slice mem)) (fun t mem => tfsFit t (mem_of_mem_slice mem)) _

/-- Decoding `m` blocks in sequence from block `j` on. -/
theorem reads_blocksFrom (lengths : docs.length = tfs.length) (docsFit : ∀ d ∈ docs, d < 2 ^ 32)
    (tfsFit : ∀ t ∈ tfs, t < 2 ^ 32) (m j : Nat) (covers : docs.length ≤ (j + m) * kBlockSize) :
    Reads
      (decodeBlocks haveNeon c m (docs.length - j * kBlockSize) (docBefore uint32Max docs j))
      ((List.range' j m).flatMap (encodedBlock c docs tfs))
      (docs.drop (j * kBlockSize), tfs.drop (j * kBlockSize)) := by
  induction m generalizing j with
  | zero =>
      have allDecoded : docs.length ≤ j * kBlockSize := by simpa using covers
      rw [List.drop_of_length_le allDecoded, List.drop_of_length_le (lengths ▸ allDecoded)]
      exact Reads.pure _
  | succ m ih =>
      have next : docs.length - j * kBlockSize - kBlockSize = docs.length - (j + 1) * kBlockSize := by
        rw [Nat.add_mul, Nat.sub_sub, Nat.one_mul]
      have tail := ih (j + 1) (by rw [show j + 1 + m = j + (m + 1) by omega]; exact covers)
      rw [← next, docBefore_succ] at tail
      have rest := tail.bind
        (f := fun more => pure (slice docs j ++ more.1, slice tfs j ++ more.2)) (Reads.pure _)
      rw [List.append_nil, slice_append_drop, slice_append_drop] at rest
      rw [List.range'_succ, List.flatMap_cons]
      exact (reads_blockOf haveNeon c lengths docsFit tfsFit j).bind rest

theorem le_blockCount_mul (n : Nat) : n ≤ blockCount n * kBlockSize := by
  unfold blockCount kBlockSize
  omega

/-- **Round trip of a term**: decoding its blocks in sequence recovers the list. -/
theorem reads_blocks (lengths : docs.length = tfs.length) (docsFit : ∀ d ∈ docs, d < 2 ^ 32)
    (tfsFit : ∀ t ∈ tfs, t < 2 ^ 32) :
    Reads (decodeBlocks haveNeon c (blockCount docs.length) docs.length uint32Max)
      (encodeBlocks c (gapsM1 uint32Max docs) (tfsM1 tfs) (blockCount docs.length)) (docs, tfs) := by
  have all := reads_blocksFrom haveNeon c lengths docsFit tfsFit (blockCount docs.length) 0
    (by rw [Nat.zero_add]; exact le_blockCount_mul _)
  rw [docBefore_zero, Nat.zero_mul, Nat.sub_zero, List.drop_zero, List.drop_zero] at all
  rw [encodeBlocks, List.range_eq_range']
  exact all

/-- Where block `j` starts in the bytes of a term. -/
def blockOffset (docs tfs : List Nat) (j : Nat) : Nat :=
  ((List.range j).flatMap (encodedBlock c docs tfs)).length

/-- **Every block decodes on its own** from its offset and the doc before it. -/
theorem decodeBlock_at_offset (lengths : docs.length = tfs.length)
    (docsFit : ∀ d ∈ docs, d < 2 ^ 32) (tfsFit : ∀ t ∈ tfs, t < 2 ^ 32) {j nb : Nat}
    (inside : j < nb) (rest : Bytes) :
    ∃ after, (decodeBlock haveNeon c (min kBlockSize (docs.length - j * kBlockSize))
        (docBefore uint32Max docs j)).run
        ((encodeBlocks c (gapsM1 uint32Max docs) (tfsM1 tfs) nb ++ rest).drop
          (blockOffset c docs tfs j)) =
      .ok ((slice docs j, slice tfs j), after) := by
  have split : List.range nb = List.range j ++ j :: List.range' (j + 1) (nb - j - 1) := by
    have whole : nb = j + ((nb - j - 1) + 1) := by omega
    conv_lhs => rw [whole]
    rw [List.range_eq_range', List.range_eq_range', ← List.range'_succ, ← List.range'_append_1,
      Nat.zero_add]
  refine ⟨(List.range' (j + 1) (nb - j - 1)).flatMap (encodedBlock c docs tfs) ++ rest, ?_⟩
  rw [encodeBlocks, split, List.flatMap_append, List.flatMap_cons, List.append_assoc, blockOffset,
    List.drop_left' rfl, List.append_assoc]
  exact reads_blockOf haveNeon c lengths docsFit tfsFit j _

end Term

/-! ## The round trip, as one statement -/

/-- **Posting block round trip.** On either build and for either codec: a block
decodes to what was encoded, with the decoder stopped at its end whatever
follows; the blocks of a term, encoded back to back, decode in sequence to the
whole list; and packing loses nothing at any bit width.  Docs and frequencies are
any 32-bit values and `prev` is anything, so increasing docs and `tf ≥ 1` are
special cases. -/
theorem decode_encode (haveNeon : Bool) (c : Codec) :
    (∀ docs tfs : List Nat, docs.length = tfs.length → (∀ d ∈ docs, d < 2 ^ 32) →
      (∀ t ∈ tfs, t < 2 ^ 32) → ∀ (prev : Nat) (rest : Bytes),
        (decodeBlock haveNeon c docs.length prev).run
          (encodeBlock c (gapsM1 prev docs) (tfsM1 tfs) ++ rest) = .ok ((docs, tfs), rest)) ∧
    (∀ docs tfs : List Nat, docs.length = tfs.length → (∀ d ∈ docs, d < 2 ^ 32) →
      (∀ t ∈ tfs, t < 2 ^ 32) → ∀ rest : Bytes,
        (decodeBlocks haveNeon c (blockCount docs.length) docs.length uint32Max).run
          (encodeBlocks c (gapsM1 uint32Max docs) (tfsM1 tfs) (blockCount docs.length) ++ rest) =
            .ok ((docs, tfs), rest)) ∧
    ∀ (bw : Nat) (v : Nat → Nat), bw ≤ 32 → (∀ i < 128, v i < 2 ^ bw) →
      unpack128Scalar bw (wordAt (storeWords (pack128 v bw) (bw * 4))) = (List.range 128).map v ∧
      unpack128Neon bw (wordAt (storeWords (pack128 v bw) (bw * 4))) = (List.range 128).map v := by
  refine ⟨fun docs tfs lengths docsFit tfsFit prev rest =>
      reads_block haveNeon c lengths docsFit tfsFit prev rest,
    fun docs tfs lengths docsFit tfsFit rest =>
      reads_blocks haveNeon c lengths docsFit tfsFit rest,
    fun bw v widthLe fits => ?_⟩
  have scalar := unpack128_pack128 widthLe fits
    (w := wordAt (storeWords (pack128 v bw) (bw * 4)))
    fun i inside => wordAt_storeWords inside (pack128_lt widthLe fits i)
  exact ⟨scalar, (unpack128Neon_eq _).trans scalar⟩

/-- A packed block of consecutive docs, and a term of a packed block and a tail. -/
theorem decode_encode_dense :
    (decodeBlock true .bp128 (List.range 128).length uint32Max).run
        (encodeBlock .bp128 (gapsM1 uint32Max (List.range 128)) (tfsM1 (List.replicate 128 1))
          ++ [7]) = .ok ((List.range 128, List.replicate 128 1), [7]) ∧
      (decodeBlocks true .bp128 (blockCount (List.range 130).length) (List.range 130).length
          uint32Max).run
        (encodeBlocks .bp128 (gapsM1 uint32Max (List.range 130)) (tfsM1 (List.replicate 130 3))
          (blockCount (List.range 130).length) ++ [7]) =
            .ok ((List.range 130, List.replicate 130 3), [7]) := by
  have docsFit : ∀ n ≤ 130, ∀ d ∈ List.range n, d < 2 ^ 32 := fun n small d mem => by
    have := List.mem_range.mp mem
    omega
  have tfsFit : ∀ n, ∀ x ≤ 3, ∀ t ∈ List.replicate n x, t < 2 ^ 32 := fun n x small t mem => by
    have := List.eq_of_mem_replicate mem
    omega
  exact ⟨(decode_encode true .bp128).1 _ _ (by simp) (docsFit 128 (by decide))
      (tfsFit 128 1 (by decide)) _ _,
    (decode_encode true .bp128).2.1 _ _ (by simp) (docsFit 130 (by decide))
      (tfsFit 130 3 (by decide)) _⟩

end Codec

end HybridSearch.Engine
