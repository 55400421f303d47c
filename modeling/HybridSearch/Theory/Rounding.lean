/-
# Theory.Rounding -- arithmetic with rounded results

A floating-point operation computes the exact result and then rounds it.  What programs
lean on is that rounding keeps the order (`Rounding.monotone`) and leaves alone what the
format represents (`Rounding.idem`); two different numbers may still become one.

`binary p` is the rounding of a format with `p` significant bits, to nearest and half to
even.  Its exponents have no bounds, so nothing overflows or vanishes.
-/
import Mathlib.Algebra.Order.Floor.Ring
import Mathlib.Data.Int.Log
import Mathlib.Data.Rat.Floor
import Mathlib.Tactic.Linarith

namespace HybridSearch.Theory

set_option autoImplicit false

/-- The rounding of a number format. -/
structure Rounding (K : Type) [Zero K] [Preorder K] where
  toFun : K → K
  monotone : Monotone toFun
  idem : ∀ x, toFun (toFun x) = toFun x
  zero : toFun 0 = 0

namespace Rounding

instance instCoeFun {K : Type} [Zero K] [Preorder K] : CoeFun (Rounding K) fun _ => K → K :=
  ⟨Rounding.toFun⟩

attribute [simp] idem zero

section General

variable {K : Type} [Zero K] [Preorder K] (fl : Rounding K)

/-- Exact arithmetic. -/
def exact (K : Type) [Zero K] [Preorder K] : Rounding K where
  toFun := id
  monotone := monotone_id
  idem _ := rfl
  zero := rfl

@[simp] theorem exact_apply (x : K) : exact K x = x := rfl

theorem nonneg {x : K} (nonneg : 0 ≤ x) : 0 ≤ fl x := by
  rw [← fl.zero]
  exact fl.monotone nonneg

/-- Below what the format represents the rounded result is too. -/
theorem le_of_le {x y : K} (represented : fl y = y) (le : x ≤ y) : fl x ≤ y := by
  rw [← represented]
  exact fl.monotone le

theorem le_of_ge {x y : K} (represented : fl x = x) (le : x ≤ y) : x ≤ fl y := by
  rw [← represented]
  exact fl.monotone le

end General

section Whole

variable {K : Type} [Ring K] [LinearOrder K] [IsStrictOrderedRing K] (fl : Rounding K)

/-- The format has the whole numbers up to `n`. -/
def Whole (n : ℕ) : Prop := ∀ i ≤ n, fl (i : K) = i

variable {fl} [FloorRing K] {n : ℕ} {x : K}

/-- **Rounding moves a number no further than to the next whole numbers.** -/
theorem Whole.between (whole : fl.Whole n) (nonneg : 0 ≤ x) (le : x ≤ n) :
    (⌊x⌋ : K) ≤ fl x ∧ fl x ≤ ⌈x⌉ := by
  have floor : ((⌊x⌋.toNat : ℕ) : Int) = ⌊x⌋ := Int.toNat_of_nonneg (Int.floor_nonneg.mpr nonneg)
  have ceil : ((⌈x⌉.toNat : ℕ) : Int) = ⌈x⌉ := Int.toNat_of_nonneg (Int.ceil_nonneg nonneg)
  have most : ⌈x⌉ ≤ n := Int.ceil_le.mpr (by exact_mod_cast le)
  have least := Int.floor_le_ceil x
  have floor_cast : ((⌊x⌋.toNat : ℕ) : K) = ⌊x⌋ := by exact_mod_cast congrArg (Int.cast (R := K)) floor
  have ceil_cast : ((⌈x⌉.toNat : ℕ) : K) = ⌈x⌉ := by exact_mod_cast congrArg (Int.cast (R := K)) ceil
  rw [← floor_cast, ← ceil_cast]
  constructor
  · refine fl.le_of_ge (whole _ (by omega)) ?_
    rw [floor_cast]
    exact Int.floor_le x
  · refine fl.le_of_le (whole _ (by omega)) ?_
    rw [ceil_cast]
    exact Int.le_ceil x

/-- **The next whole number above** is kept, or rounding came down to the one below. -/
theorem Whole.ceil (whole : fl.Whole n) (nonneg : 0 ≤ x) (le : x ≤ n) :
    ⌈fl x⌉ = ⌈x⌉ ∨ fl x = ⌊x⌋ := by
  obtain ⟨low, high⟩ := whole.between nonneg le
  rcases low.eq_or_lt with down | up
  · exact .inr down.symm
  · left
    have above : ⌊x⌋ < ⌈fl x⌉ := Int.lt_ceil.mpr up
    have most : ⌈fl x⌉ ≤ ⌈x⌉ := Int.ceil_le.mpr high
    have next := Int.ceil_le_floor_add_one x
    omega

end Whole

/-! ## Half to even -/

def halfEven (x : ℚ) : Int :=
  if x - ⌊x⌋ < 1 / 2 then ⌊x⌋
  else if 1 / 2 < x - ⌊x⌋ then ⌊x⌋ + 1
  else if ⌊x⌋ % 2 = 0 then ⌊x⌋ else ⌊x⌋ + 1

theorem halfEven_bounds (x : ℚ) : ⌊x⌋ ≤ halfEven x ∧ halfEven x ≤ ⌊x⌋ + 1 := by
  rw [halfEven]
  split_ifs <;> omega

@[simp] theorem halfEven_intCast (m : Int) : halfEven m = m := by
  rw [halfEven, Int.floor_intCast, sub_self, if_pos (by norm_num)]

theorem halfEven_mono {x y : ℚ} (le : x ≤ y) : halfEven x ≤ halfEven y := by
  rcases (Int.floor_le_floor le).lt_or_eq with less | same
  · have x_bounds := halfEven_bounds x
    have y_bounds := halfEven_bounds y
    omega
  · have parts : x - ⌊x⌋ ≤ y - ⌊x⌋ := sub_le_sub_right le _
    rw [halfEven, halfEven, ← same]
    by_cases low : y - ⌊x⌋ < 1 / 2
    · rw [if_pos low, if_pos (parts.trans_lt low)]
    · rw [if_neg low]
      by_cases high : 1 / 2 < y - ⌊x⌋
      · rw [if_pos high]
        split_ifs <;> omega
      · rw [if_neg high, if_neg fun above => high (lt_of_lt_of_le above parts)]
        split_ifs <;> omega

theorem halfEven_neg (x : ℚ) : halfEven (-x) = -halfEven x := by
  by_cases whole : x = ⌊x⌋
  · rw [whole, ← Int.cast_neg, halfEven_intCast, halfEven_intCast]
  · have less : (⌊x⌋ : ℚ) < x := lt_of_le_of_ne (Int.floor_le x) (Ne.symm whole)
    have floor : ⌊-x⌋ = -⌊x⌋ - 1 := by
      rw [Int.floor_eq_iff]
      push_cast
      constructor
      · linarith [Int.lt_floor_add_one x]
      · linarith
    have parts : -x - (⌊-x⌋ : Int) = 1 - (x - ⌊x⌋) := by
      rw [floor]
      push_cast
      ring
    rw [halfEven, halfEven, parts, floor]
    split_ifs <;> first | omega | linarith

/-! ## A given number of bits -/

section Binary

variable (p : ℕ)

/-- The unit of the last of the `p` leading bits. -/
def ulp (x : ℚ) : ℚ := 2 ^ (Int.log 2 |x| + 1 - p)

/-- `x` with `p` bits. -/
def toBits (x : ℚ) : ℚ := halfEven (x / ulp p x) * ulp p x

variable {p} {x y : ℚ}

theorem ulp_pos (p : ℕ) (x : ℚ) : 0 < ulp p x := zpow_pos two_pos _

theorem ulp_neg : ulp p (-x) = ulp p x := by rw [ulp, abs_neg, ulp]

theorem toBits_neg : toBits p (-x) = -toBits p x := by
  rw [toBits, ulp_neg, neg_div, halfEven_neg, Int.cast_neg, neg_mul, toBits]

/-- What is a multiple of its own unit needs no rounding. -/
theorem toBits_of_multiple {m : Int} (multiple : x = m * ulp p x) : toBits p x = x := by
  have mantissa : x / ulp p x = m := (div_eq_iff (ulp_pos p x).ne').mpr multiple
  rw [toBits, mantissa, halfEven_intCast]
  exact multiple.symm

/-- The unit below the leading power, in whole numbers. -/
theorem zpow_eq_mul_ulp (x : ℚ) {e : Int} (reach : Int.log 2 |x| + 1 ≤ e + p) :
    ∃ k : ℕ, (e + p : Int) = Int.log 2 |x| + 1 + k ∧ (2 : ℚ) ^ e = (2 ^ k : ℕ) * ulp p x := by
  refine ⟨(e + p - (Int.log 2 |x| + 1)).toNat, by omega, ?_⟩
  rw [ulp, Nat.cast_pow, Nat.cast_ofNat, ← zpow_natCast, ← zpow_add₀ two_ne_zero]
  congr 1
  omega

/-- **A rounded number stays between the powers of two around it.** -/
theorem toBits_bounds (bits : 0 < p) (positive : 0 < x) :
    (2 : ℚ) ^ Int.log 2 x ≤ toBits p x ∧ toBits p x ≤ 2 ^ (Int.log 2 x + 1) := by
  have abs : |x| = x := abs_of_pos positive
  have low : (2 : ℚ) ^ Int.log 2 x ≤ x := by
    exact_mod_cast Int.zpow_log_le_self (b := 2) one_lt_two positive
  have high : x ≤ (2 : ℚ) ^ (Int.log 2 x + 1) := by
    exact_mod_cast (Int.lt_zpow_succ_log_self (b := 2) one_lt_two x).le
  obtain ⟨k, -, leading⟩ := zpow_eq_mul_ulp (p := p) x (e := Int.log 2 x) (by rw [abs]; omega)
  obtain ⟨k', -, next⟩ := zpow_eq_mul_ulp (p := p) x (e := Int.log 2 x + 1) (by rw [abs]; omega)
  have unit := ulp_pos p x
  rw [leading] at low ⊢
  rw [next] at high ⊢
  constructor
  · have mantissa : (((2 ^ k : ℕ) : Int) : ℚ) ≤ x / ulp p x := by
      rw [le_div_iff₀ unit]
      exact_mod_cast low
    have rounded := halfEven_mono mantissa
    rw [halfEven_intCast] at rounded
    exact mul_le_mul_of_nonneg_right (by exact_mod_cast rounded) unit.le
  · have mantissa : x / ulp p x ≤ (((2 ^ k' : ℕ) : Int) : ℚ) := by
      rw [div_le_iff₀ unit]
      exact_mod_cast high
    have rounded := halfEven_mono mantissa
    rw [halfEven_intCast] at rounded
    exact mul_le_mul_of_nonneg_right (by exact_mod_cast rounded) unit.le

theorem toBits_mono_pos (bits : 0 < p) (positive : 0 < x) (le : x ≤ y) : toBits p x ≤ toBits p y := by
  rcases (Int.log_mono_right (b := 2) positive le).lt_or_eq with less | same
  · calc toBits p x ≤ 2 ^ (Int.log 2 x + 1) := (toBits_bounds bits positive).2
      _ ≤ 2 ^ Int.log 2 y := zpow_le_zpow_right₀ one_le_two less
      _ ≤ toBits p y := (toBits_bounds bits (positive.trans_le le)).1
  · have unit : ulp p y = ulp p x := by
      rw [ulp, ulp, abs_of_pos positive, abs_of_pos (positive.trans_le le), same]
    rw [toBits, toBits, unit]
    refine mul_le_mul_of_nonneg_right ?_ (ulp_pos p x).le
    exact_mod_cast halfEven_mono (div_le_div_of_nonneg_right le (ulp_pos p x).le)

theorem toBits_zero : toBits p 0 = 0 := by
  rw [toBits, zero_div, ← Int.cast_zero, halfEven_intCast, Int.cast_zero, zero_mul]

theorem toBits_nonneg (bits : 0 < p) (nonneg : 0 ≤ x) : 0 ≤ toBits p x := by
  rcases nonneg.eq_or_lt with rfl | positive
  · exact toBits_zero.ge
  · exact (zpow_pos two_pos _).le.trans (toBits_bounds bits positive).1

/-- **Rounding to `p` bits keeps the order.** -/
theorem toBits_mono (bits : 0 < p) : Monotone (toBits p) := by
  intro x y le
  rcases lt_or_ge 0 x with positive | x_nonpos
  · exact toBits_mono_pos bits positive le
  · have x_rounded : toBits p x ≤ 0 := by
      rw [← neg_nonneg, ← toBits_neg]
      exact toBits_nonneg bits (neg_nonneg.mpr x_nonpos)
    rcases lt_or_ge y 0 with negative | y_nonneg
    · rw [← neg_le_neg_iff, ← toBits_neg, ← toBits_neg]
      exact toBits_mono_pos bits (neg_pos.mpr negative) (neg_le_neg le)
    · exact x_rounded.trans (toBits_nonneg bits y_nonneg)

theorem toBits_idem_pos (bits : 0 < p) (positive : 0 < x) : toBits p (toBits p x) = toBits p x := by
  obtain ⟨low, high⟩ := toBits_bounds bits positive
  have rounded_pos : 0 < toBits p x := (zpow_pos two_pos _).trans_le low
  rcases high.lt_or_eq with less | top
  · -- the same leading bit, so the same unit
    have leading : Int.log 2 (toBits p x) = Int.log 2 x := by
      refine le_antisymm ?_ ((Int.zpow_le_iff_le_log one_lt_two rounded_pos).mp (by exact_mod_cast low))
      exact Int.lt_add_one_iff.mp
        ((Int.lt_zpow_iff_log_lt one_lt_two rounded_pos).mp (by exact_mod_cast less))
    have unit : ulp p (toBits p x) = ulp p x := by
      rw [ulp, ulp, abs_of_pos rounded_pos, abs_of_pos positive, leading]
    exact toBits_of_multiple (m := halfEven (x / ulp p x)) (by rw [unit]; rfl)
  · -- a power of two
    have leading : Int.log 2 (toBits p x) = Int.log 2 x + 1 := by
      rw [top]
      exact_mod_cast Int.log_zpow (R := ℚ) (b := 2) one_lt_two (Int.log 2 x + 1)
    obtain ⟨k, -, multiple⟩ := zpow_eq_mul_ulp (p := p) (toBits p x) (e := Int.log 2 x + 1)
      (by rw [abs_of_pos rounded_pos, leading]; omega)
    refine toBits_of_multiple (m := (2 ^ k : ℕ)) ?_
    exact_mod_cast top.trans multiple

theorem toBits_idem (bits : 0 < p) (x : ℚ) : toBits p (toBits p x) = toBits p x := by
  rcases lt_trichotomy x 0 with negative | rfl | positive
  · have flipped := toBits_idem_pos bits (neg_pos.mpr negative)
    rwa [toBits_neg, toBits_neg, neg_inj] at flipped
  · rw [toBits_zero, toBits_zero]
  · exact toBits_idem_pos bits positive

/-- The rounding of a format with `p` bits. -/
def binary (p : ℕ) (bits : 0 < p) : Rounding ℚ where
  toFun := toBits p
  monotone := toBits_mono bits
  idem := toBits_idem bits
  zero := toBits_zero

/-- **It has the whole numbers** up to `2 ^ p`. -/
theorem whole_binary (bits : 0 < p) : (binary p bits).Whole (2 ^ p) := by
  intro i le
  rcases Nat.eq_zero_or_pos i with rfl | positive
  · rw [Nat.cast_zero]
    exact toBits_zero
  · have cast_pos : (0 : ℚ) < i := Nat.cast_pos.mpr positive
    rcases le.lt_or_eq with less | rfl
    · have leading : Int.log 2 |(i : ℚ)| + 1 ≤ 0 + p := by
        rw [abs_of_pos cast_pos, Int.log_natCast, zero_add]
        exact_mod_cast Nat.log_lt_of_lt_pow positive.ne' less
      obtain ⟨k, -, unit⟩ := zpow_eq_mul_ulp (i : ℚ) leading
      refine toBits_of_multiple (m := (i * 2 ^ k : ℕ)) ?_
      rw [zpow_zero] at unit
      push_cast at unit ⊢
      rw [mul_assoc, ← unit, mul_one]
    · have leading : Int.log 2 |((2 ^ p : ℕ) : ℚ)| = p := by
        rw [abs_of_pos cast_pos, Int.log_natCast, Nat.log_pow one_lt_two]
      obtain ⟨k, -, multiple⟩ := zpow_eq_mul_ulp (p := p) ((2 ^ p : ℕ) : ℚ) (e := p)
        (by rw [leading]; omega)
      refine toBits_of_multiple (m := (2 ^ k : ℕ)) ?_
      rw [zpow_natCast] at multiple
      exact_mod_cast multiple

end Binary

/-- The rounding of a `double`. -/
def double : Rounding ℚ := binary 53 (by decide)

end Rounding

end HybridSearch.Theory
