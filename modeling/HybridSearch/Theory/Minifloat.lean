/-
# Theory.Minifloat -- truncation to the leading bits of a number

A small float keeps the `m` leading bits of a natural number and the shift that
brings them back into place.  `truncate m x` is the value such a code restores:
`x` with everything below its `m` leading bits cleared.  The map is lossy, but
it never exceeds `x`, keeps the leading bit, and is monotone, which is all that
an ordering argument over quantised values needs.
-/
import Mathlib.Data.Nat.Log
import Mathlib.Data.Nat.Bitwise

namespace HybridSearch.Theory.Minifloat

set_option autoImplicit false

/-- How many low bits a code of `m` leading bits drops. -/
def dropped (m x : Nat) : Nat := Nat.log2 x + 1 - m

/-- `x` with all but its `m` leading bits cleared. -/
def truncate (m x : Nat) : Nat := (x >>> dropped m x) <<< dropped m x

theorem truncate_eq (m x : Nat) : truncate m x = x / 2 ^ dropped m x * 2 ^ dropped m x := by
  rw [truncate, Nat.shiftLeft_eq, Nat.shiftRight_eq_div_pow]

theorem truncate_le (m x : Nat) : truncate m x ≤ x := by
  rw [truncate_eq]
  exact Nat.div_mul_le_self x _

/-- A number of at most `m` bits is kept whole. -/
theorem truncate_of_lt {m x : Nat} (small : x < 2 ^ m) : truncate m x = x := by
  by_cases zero : x = 0
  · subst zero
    exact Nat.le_zero.mp (truncate_le m 0)
  · have bits := (Nat.log2_lt zero).mpr small
    have nothing : dropped m x = 0 := by
      simp only [dropped]
      omega
    simp [truncate, nothing]

/-- The leading bit survives. -/
theorem pow_log2_le_truncate {m x : Nat} (bits : 0 < m) (pos : x ≠ 0) :
    2 ^ Nat.log2 x ≤ truncate m x := by
  have below : dropped m x ≤ Nat.log2 x := by
    simp only [dropped]
    omega
  have leading : 2 ^ (Nat.log2 x - dropped m x) ≤ x / 2 ^ dropped m x := by
    rw [Nat.le_div_iff_mul_le (Nat.two_pow_pos _), ← pow_add]
    have : Nat.log2 x - dropped m x + dropped m x = Nat.log2 x := by omega
    rw [this]
    exact Nat.log2_self_le pos
  calc 2 ^ Nat.log2 x = 2 ^ (Nat.log2 x - dropped m x) * 2 ^ dropped m x := by
        rw [← pow_add]
        congr 1
        omega
    _ ≤ truncate m x := by
        rw [truncate_eq]
        exact Nat.mul_le_mul_right _ leading

/-- **Truncation is monotone**: with the same number of bits the same ones are
dropped, and otherwise the leading bit of the larger number decides. -/
theorem truncate_mono {m : Nat} (bits : 0 < m) : Monotone (truncate m) := by
  intro x y le
  by_cases zero : x = 0
  · subst zero
    exact le_trans (truncate_le m 0) (Nat.zero_le _)
  have posY : y ≠ 0 := by omega
  have logLe : Nat.log2 x ≤ Nat.log2 y :=
    (Nat.le_log2 posY).mpr (le_trans (Nat.log2_self_le zero) le)
  rcases Nat.lt_or_ge (Nat.log2 x) (Nat.log2 y) with fewer | same
  · calc truncate m x ≤ x := truncate_le m x
      _ ≤ 2 ^ Nat.log2 y := le_of_lt ((Nat.log2_lt zero).mp fewer)
      _ ≤ truncate m y := pow_log2_le_truncate bits posY
  · have shifts : dropped m x = dropped m y := by
      simp only [dropped]
      omega
    rw [truncate_eq, truncate_eq, shifts]
    exact Nat.mul_le_mul_right _ (Nat.div_le_div_right le)

end HybridSearch.Theory.Minifloat
