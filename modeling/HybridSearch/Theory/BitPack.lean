/-
# Theory.BitPack -- fixed-width values packed into words

Values `v 0, v 1, …` of `bw` bits each are laid end to end in a stream of
`W`-bit words: value `r` starts at bit `r * bw`, in word `r * bw / W`, and
straddles into the next word when it does not fit.  `packStep` ors one value
into the words, `packLane` packs `m` of them, `unpackAt` reads one back.  The
word size, the width and the number of values are parameters.

The spec of packing is bitwise (`packLane_testBit`): bit `j` of word `k` is set
exactly when some value covers stream position `W * k + j` with a set bit.  No
case analysis on the width is needed, and `unpackAt_packLane` follows.
-/
import Mathlib.Data.Nat.Bitwise
import Mathlib.Logic.Function.Basic
import Mathlib.Tactic.NormNum
import Mathlib.Tactic.Ring
import Mathlib.Tactic.Linarith

namespace HybridSearch.Theory.BitPack

set_option autoImplicit false

variable {W bw : Nat}

/-- Or value `r` of the stream into the words it covers. -/
def packStep (W bw : Nat) (v : Nat → Nat) (w : Nat → Nat) (r : Nat) : Nat → Nat :=
  let k := r * bw / W
  let sh := r * bw % W
  let w := Function.update w k (w k ||| (v r <<< sh) % 2 ^ W)
  if W < sh + bw then Function.update w (k + 1) (w (k + 1) ||| v r >>> (W - sh)) else w

def packLane (W bw : Nat) (v : Nat → Nat) (m : Nat) : Nat → Nat :=
  (List.range m).foldl (packStep W bw v) fun _ => 0

/-- Read value `r` of the stream back. -/
def unpackAt (W bw : Nat) (w : Nat → Nat) (r : Nat) : Nat :=
  let k := r * bw / W
  let sh := r * bw % W
  let low := w k >>> sh
  (if W < sh + bw then low ||| (w (k + 1) <<< (W - sh)) % 2 ^ W else low) % 2 ^ bw

/-- Value `r` covers stream position `q` with a set bit. -/
def Covers (bw : Nat) (v : Nat → Nat) (r q : Nat) : Prop :=
  r * bw ≤ q ∧ (v r).testBit (q - r * bw) = true

theorem testBit_of_width {x i : Nat} (fits : x < 2 ^ bw) (high : bw ≤ i) : x.testBit i = false :=
  Nat.testBit_lt_two_pow (lt_of_lt_of_le fits (Nat.pow_le_pow_right (by decide) high))

/-- A value covers only the `bw` positions from its start. -/
theorem Covers.lt {v : Nat → Nat} {r q : Nat} (fits : v r < 2 ^ bw) (covers : Covers bw v r q) :
    q < (r + 1) * bw := by
  by_contra outside
  have high : bw ≤ q - r * bw := by
    rw [Nat.add_mul] at outside
    omega
  rw [Covers, testBit_of_width fits high] at covers
  exact absurd covers.2 (by decide)

/-- The two word updates of one step set exactly the bits value `r` covers. -/
theorem packStep_testBit (widthLe : bw ≤ W) {v : Nat → Nat} {r : Nat} (fits : v r < 2 ^ bw)
    (w : Nat → Nat) (k j : Nat) (inWord : j < W) :
    (packStep W bw v w r k).testBit j = true ↔
      (w k).testBit j = true ∨ Covers bw v r (W * k + j) := by
  have wordPos : 0 < W := by omega
  have split : W * (r * bw / W) + r * bw % W = r * bw := Nat.div_add_mod _ _
  have shLt : r * bw % W < W := Nat.mod_lt _ wordPos
  simp only [packStep, Covers]
  generalize r * bw / W = k₀ at *
  generalize r * bw % W = sh at *
  generalize r * bw = start at *
  -- the word the value starts in
  have first : ((v r <<< sh) % 2 ^ W).testBit j = true ↔
      start ≤ W * k₀ + j ∧ (v r).testBit (W * k₀ + j - start) = true := by
    rw [Nat.testBit_mod_two_pow, Nat.testBit_shiftLeft]
    have : W * k₀ + j - start = j - sh := by omega
    have : sh ≤ j ↔ start ≤ W * k₀ + j := by omega
    simp_all
  -- the word after it: the value reaches it only when it straddles
  have second : (v r >>> (W - sh)).testBit j = true ↔
      start ≤ W * (k₀ + 1) + j ∧ (v r).testBit (W * (k₀ + 1) + j - start) = true := by
    rw [Nat.testBit_shiftRight]
    have below : start ≤ W * (k₀ + 1) + j := by
      rw [Nat.mul_add]
      omega
    have : W - sh + j = W * (k₀ + 1) + j - start := by
      rw [Nat.mul_add]
      omega
    simp [this, below]
  have outside : k ≠ k₀ → (k = k₀ + 1 → sh + bw ≤ W) →
      ¬ (start ≤ W * k + j ∧ (v r).testBit (W * k + j - start) = true) := by
    rintro ne short ⟨low, bit⟩
    rcases Nat.lt_or_gt_of_ne ne with before | after
    · have : W * (k + 1) ≤ W * k₀ := Nat.mul_le_mul_left _ before
      rw [Nat.mul_add] at this
      omega
    · have far : bw ≤ W * k + j - start := by
        by_cases next : k = k₀ + 1
        · have := short next
          rw [next, Nat.mul_add]
          omega
        · have : W * (k₀ + 2) ≤ W * k := Nat.mul_le_mul_left _ (by omega)
          rw [Nat.mul_add] at this
          omega
      rw [testBit_of_width fits far] at bit
      exact absurd bit (by decide)
  by_cases isFirst : k = k₀
  · subst isFirst
    have apart : k ≠ k + 1 := by omega
    split_ifs <;>
      simp only [Function.update_self, Function.update_of_ne apart, Nat.testBit_lor, Bool.or_eq_true, first]
  · by_cases straddles : W < sh + bw
    · rw [if_pos straddles]
      by_cases isSecond : k = k₀ + 1
      · subst isSecond
        simp only [Function.update_self, Function.update_of_ne isFirst, Nat.testBit_lor, Bool.or_eq_true, second]
      · simp only [Function.update_of_ne isSecond, Function.update_of_ne isFirst,
          outside isFirst (fun h => absurd h isSecond), or_false]
    · rw [if_neg straddles]
      simp only [Function.update_of_ne isFirst, outside isFirst (fun _ => by omega), or_false]

/-- **The bits of a packed stream.** -/
theorem packLane_testBit (widthLe : bw ≤ W) {v : Nat → Nat} {m : Nat}
    (fits : ∀ r < m, v r < 2 ^ bw) (k j : Nat) (inWord : j < W) :
    (packLane W bw v m k).testBit j = true ↔ ∃ r < m, Covers bw v r (W * k + j) := by
  induction m with
  | zero => simp [packLane]
  | succ m ih =>
      have ih := ih fun r lt => fits r (by omega)
      have step := packStep_testBit widthLe (fits m (by omega)) (packLane W bw v m) k j inWord
      rw [packLane, List.range_succ, List.foldl_append, List.foldl_cons, List.foldl_nil, ← packLane,
        step, ih]
      constructor
      · rintro (⟨r, lt, covers⟩ | covers)
        · exact ⟨r, by omega, covers⟩
        · exact ⟨m, by omega, covers⟩
      · rintro ⟨r, lt, covers⟩
        by_cases last : r = m
        · exact Or.inr (last ▸ covers)
        · exact Or.inl ⟨r, by omega, covers⟩

theorem packStep_lt (widthLe : bw ≤ W) {v w : Nat → Nat} {r : Nat} (fits : v r < 2 ^ bw)
    (bounded : ∀ k, w k < 2 ^ W) (k : Nat) : packStep W bw v w r k < 2 ^ W := by
  have small : v r >>> (W - r * bw % W) < 2 ^ W :=
    lt_of_le_of_lt (Nat.shiftRight_le _ _)
      (lt_of_lt_of_le fits (Nat.pow_le_pow_right (by decide) widthLe))
  have low : (v r <<< (r * bw % W)) % 2 ^ W < 2 ^ W := Nat.mod_lt _ (by positivity)
  have first : ∀ k, Function.update w (r * bw / W)
      (w (r * bw / W) ||| (v r <<< (r * bw % W)) % 2 ^ W) k < 2 ^ W := by
    intro k
    by_cases h : k = r * bw / W
    · subst h
      simpa using Nat.or_lt_two_pow (bounded _) low
    · simpa [Function.update_of_ne h] using bounded k
  simp only [packStep]
  split_ifs
  · by_cases h : k = r * bw / W + 1
    · subst h
      simpa using Nat.or_lt_two_pow (first (r * bw / W + 1)) small
    · simpa [Function.update_of_ne h] using first k
  · exact first k

theorem packLane_lt (widthLe : bw ≤ W) {v : Nat → Nat} {m : Nat}
    (fits : ∀ r < m, v r < 2 ^ bw) (k : Nat) : packLane W bw v m k < 2 ^ W := by
  induction m generalizing k with
  | zero => simp [packLane]
  | succ m ih =>
      rw [packLane, List.range_succ, List.foldl_append, List.foldl_cons, List.foldl_nil, ← packLane]
      exact packStep_lt widthLe (fits m (by omega)) (ih fun r lt => fits r (by omega)) k

/-- Inside value `r`'s own positions the stream carries value `r`'s bits. -/
theorem covered_iff {v : Nat → Nat} {m r i : Nat} (fits : ∀ r < m, v r < 2 ^ bw)
    (rLt : r < m) (iLt : i < bw) :
    (∃ s < m, Covers bw v s (r * bw + i)) ↔ (v r).testBit i = true := by
  constructor
  · rintro ⟨s, sLt, covers⟩
    have upper := covers.lt (fits s sLt)
    have lower := covers.1
    have same : s = r := by
      rcases Nat.lt_trichotomy s r with lt | eq | gt
      · have : (s + 1) * bw ≤ r * bw := Nat.mul_le_mul_right _ lt
        omega
      · exact eq
      · have : (r + 1) * bw ≤ s * bw := Nat.mul_le_mul_right _ gt
        rw [Nat.add_mul] at this
        omega
    subst same
    simpa [Covers] using covers.2
  · intro bit
    exact ⟨r, rLt, by omega, by simpa using bit⟩

/-- **Unpacking undoes packing**, for every width up to the word size. -/
theorem unpackAt_packLane (widthLe : bw ≤ W) {v : Nat → Nat} {m r : Nat}
    (fits : ∀ r < m, v r < 2 ^ bw) (rLt : r < m) :
    unpackAt W bw (packLane W bw v m) r = v r := by
  apply Nat.eq_of_testBit_eq
  intro i
  by_cases iLt : i < bw
  swap
  · have high : bw ≤ i := by omega
    rw [testBit_of_width (fits r rLt) high, unpackAt, Nat.testBit_mod_two_pow]
    simp [iLt]
  have wordPos : 0 < W := by omega
  have split : W * (r * bw / W) + r * bw % W = r * bw := Nat.div_add_mod _ _
  have shLt : r * bw % W < W := Nat.mod_lt _ wordPos
  have own := covered_iff fits rLt iLt
  have low := packLane_testBit widthLe fits (r * bw / W) (r * bw % W + i)
  have high := packLane_testBit widthLe fits (r * bw / W + 1) (r * bw % W + i - W)
  have beyond : W ≤ r * bw % W + i → (packLane W bw v m (r * bw / W)).testBit (r * bw % W + i) = false :=
    fun le => testBit_of_width (packLane_lt widthLe fits _) le
  rw [Bool.eq_iff_iff, ← own, unpackAt, Nat.testBit_mod_two_pow]
  simp only [iLt, decide_true, Bool.true_and]
  generalize r * bw / W = k at *
  generalize r * bw % W = sh at *
  have lowPos : W * k + (sh + i) = r * bw + i := by omega
  by_cases inFirst : sh + i < W
  · have low := low inFirst
    rw [lowPos] at low
    split_ifs with straddles
    · have skip : ¬ W - sh ≤ i := by omega
      simp only [Nat.testBit_lor, Nat.testBit_mod_two_pow, Nat.testBit_shiftLeft, Nat.testBit_shiftRight,
        skip, decide_false, Bool.false_and, Bool.and_false, Bool.or_false, low]
    · simp only [Nat.testBit_shiftRight, low]
  · have straddles : W < sh + bw := by omega
    have high := high (by omega)
    have highPos : W * (k + 1) + (sh + i - W) = r * bw + i := by
      rw [Nat.mul_add]
      omega
    have reach : W - sh ≤ i := by omega
    have inWord : i < W := by omega
    have index : i - (W - sh) = sh + i - W := by omega
    rw [highPos] at high
    rw [if_pos straddles]
    simp only [Nat.testBit_lor, Nat.testBit_mod_two_pow, Nat.testBit_shiftLeft, Nat.testBit_shiftRight,
      beyond (by omega), inWord, reach, index, decide_true, Bool.true_and, Bool.false_or, high]

end HybridSearch.Theory.BitPack
