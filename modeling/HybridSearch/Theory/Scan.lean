/-
# Theory.Scan -- moving a place up or down while a test holds

`up` and `down` are the loops `while (test(p)) ++p` and `while (test(p)) --p`.
Where the test fails beyond a bound they end at the first place, from where they
start, at which it fails.
-/
import Mathlib.Tactic

namespace HybridSearch.Theory.Scan

set_option autoImplicit false

def up (test : Nat → Bool) : Nat → Nat → Nat
  | 0, p => p
  | fuel + 1, p => if test p then up test fuel (p + 1) else p

def down (test : Nat → Bool) : Nat → Nat → Nat
  | 0, p => p
  | fuel + 1, p => if test p then down test fuel (p - 1) else p

variable {test : Nat → Bool}

/-- **Moving up** ends at the first place where the test fails. -/
theorem up_spec {fuel p n : Nat} (bound : ∀ q, test q = true → q < n) (enough : n ≤ p + fuel) :
    p ≤ up test fuel p ∧ test (up test fuel p) = false ∧
      ∀ q, p ≤ q → q < up test fuel p → test q = true := by
  induction fuel generalizing p with
  | zero =>
      refine ⟨le_rfl, ?_, fun q low high => absurd low (by rw [up] at high; omega)⟩
      rw [up]
      by_contra holds
      have := bound p (by simpa using holds)
      omega
  | succ fuel ih =>
      rw [up]
      split
      · rename_i holds
        obtain ⟨low, stops, before⟩ := @ih (p + 1) (by omega)
        refine ⟨by omega, stops, fun q atLeast high => ?_⟩
        rcases Nat.eq_or_lt_of_le atLeast with rfl | later
        · exact holds
        · exact before q later high
      · rename_i fails
        refine ⟨le_rfl, by simpa using fails, fun q low high => ?_⟩
        omega

/-- **Moving down** ends at the first place where the test fails. -/
theorem down_spec {fuel p n : Nat} (bound : ∀ q, test q = true → n < q) (enough : p ≤ n + fuel) :
    down test fuel p ≤ p ∧ test (down test fuel p) = false ∧
      ∀ q, down test fuel p < q → q ≤ p → test q = true := by
  induction fuel generalizing p with
  | zero =>
      refine ⟨le_rfl, ?_, fun q low high => absurd low (by rw [down]; omega)⟩
      rw [down]
      by_contra holds
      have := bound p (by simpa using holds)
      omega
  | succ fuel ih =>
      rw [down]
      split
      · rename_i holds
        have positive := bound p holds
        obtain ⟨high, stops, after⟩ := @ih (p - 1) (by omega)
        refine ⟨by omega, stops, fun q low upTo => ?_⟩
        rcases Nat.eq_or_lt_of_le upTo with rfl | earlier
        · exact holds
        · exact after q low (by omega)
      · rename_i fails
        refine ⟨le_rfl, by simpa using fails, fun q low high => ?_⟩
        omega

theorem up_of_false {fuel p : Nat} (fails : test p = false) : up test fuel p = p := by
  cases fuel with
  | zero => rfl
  | succ fuel => rw [up, fails, if_neg Bool.false_ne_true]

theorem down_of_false {fuel p : Nat} (fails : test p = false) : down test fuel p = p := by
  cases fuel with
  | zero => rfl
  | succ fuel => rw [down, fails, if_neg Bool.false_ne_true]

end HybridSearch.Theory.Scan
