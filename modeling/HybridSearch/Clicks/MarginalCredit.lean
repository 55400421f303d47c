/-
# Clicks.MarginalCredit -- marginalised credit of probabilistic interleaving (py/hybridsearch/clicks/interleave.py)

`probabilisticMarginalOutcome` convolves, position by position, the distribution of the
difference between the clicks of the two teams over `2 k + 1` cells.  Every operation is
made row by row of the arrays, so one row is modelled.  Exact arithmetic.

The positions are the moves of a walk, and `k` of them cannot leave the cells
(`Theory.Walk`).  The sum over all team assignments is the expectation of the same walk
(`expect_moves`).
-/
import HybridSearch.Theory.Walk
import Mathlib.Algebra.BigOperators.Group.List.Basic
import Mathlib.Algebra.Order.Ring.Rat

namespace HybridSearch.Clicks

open HybridSearch.Theory

set_option autoImplicit false

/-- `pa`, `pb` and `stay` of one position. -/
def moveAt (p : ℚ) (click : Bool) : Walk.Move ℚ :=
  let pa := if click then p else 0
  let pb := if click then 1 - p else 0
  ⟨pa, pb, 1 - pa - pb⟩

/-- `probabilistic_marginal_outcome`, for one impression of `k` positions. -/
def probabilisticMarginalOutcome (pA : List ℚ) (clicks : List Bool) : ℚ :=
  let k := clicks.length
  let dist := (List.replicate (2 * k + 1) 0).set k 1
  let dist := (List.zipWith moveAt pA clicks).foldl (fun dist m => Walk.spread m dist) dist
  (dist.drop (k + 1)).sum - (dist.take k).sum

/-! ## The sum over the assignments -/

/-- All ways to give `k` positions to the teams; `true` is team A. -/
def assignments : Nat → List (List Bool)
  | 0 => [[]]
  | k + 1 => (assignments k).map (true :: ·) ++ (assignments k).map (false :: ·)

/-- The probability of an assignment. -/
def weight : List ℚ → List Bool → ℚ
  | p :: ps, team :: teams => (if team then p else 1 - p) * weight ps teams
  | _, _ => 1

/-- The clicks on A less the clicks on B. -/
def lead (clicks teams : List Bool) : Int :=
  ((clicks.zip teams).countP fun x => x.1 && x.2) - ((clicks.zip teams).countP fun x => x.1 && !x.2)

/-- What the credit stands for. -/
def expectedCredit (pA : List ℚ) (clicks : List Bool) : ℚ :=
  ((assignments clicks.length).map fun teams => weight pA teams * (lead clicks teams).sign).sum

theorem lead_cons (click team : Bool) (clicks teams : List Bool) :
    lead (click :: clicks) (team :: teams) =
      (if click then if team then 1 else -1 else 0) + lead clicks teams := by
  cases click <;> cases team <;> simp [lead] <;> ring

/-- The sum over the assignments, one position at a time. -/
theorem expect_moves {pA : List ℚ} {clicks : List Bool} (same : pA.length = clicks.length) (f : Int → ℚ) :
    Walk.expect f (List.zipWith moveAt pA clicks) =
      ((assignments clicks.length).map fun teams => weight pA teams * f (lead clicks teams)).sum := by
  induction clicks generalizing pA f with
  | nil =>
      obtain rfl : pA = [] := List.length_eq_zero_iff.mp same
      simp [Walk.expect, assignments, weight, lead]
  | cons click clicks ih =>
      obtain ⟨p, ps, rfl⟩ := List.exists_cons_of_length_eq_add_one same
      have rest : ps.length = clicks.length := Nat.succ.inj same
      have team (t : Bool) : ((assignments clicks.length).map fun teams =>
          weight (p :: ps) (t :: teams) * f (lead (click :: clicks) (t :: teams))).sum =
          (if t then p else 1 - p) * Walk.expect (fun x => f ((if click then if t then 1 else -1 else 0) + x))
            (List.zipWith moveAt ps clicks) := by
        rw [ih rest, ← List.sum_map_mul_left]
        refine congrArg List.sum (List.map_congr_left fun teams _ => ?_)
        rw [weight, lead_cons, mul_assoc]
      rw [List.length_cons, assignments, List.map_append, List.sum_append, List.map_map, List.map_map]
      change _ = ((assignments clicks.length).map fun teams =>
          weight (p :: ps) (true :: teams) * f (lead (click :: clicks) (true :: teams))).sum +
        ((assignments clicks.length).map fun teams =>
          weight (p :: ps) (false :: teams) * f (lead (click :: clicks) (false :: teams))).sum
      rw [team, team, List.zipWith_cons_cons, Walk.expect]
      cases click with
      | true =>
          have up : (fun x : Int => f (1 + x)) = fun x => f (x + 1) := funext fun x => by rw [add_comm]
          have down : (fun x : Int => f (-1 + x)) = fun x => f (x - 1) :=
            funext fun x => by rw [neg_add_eq_sub]
          simp only [moveAt, if_true, Bool.false_eq_true, if_false, up, down]
          ring
      | false =>
          simp only [moveAt, Bool.false_eq_true, if_false, if_true, zero_add]
          ring

/-! ## The credit -/

theorem outcome_eq_expect {pA : List ℚ} {clicks : List Bool} (same : pA.length = clicks.length) :
    probabilisticMarginalOutcome pA clicks =
      Walk.expect (fun x => (x.sign : ℚ)) (List.zipWith moveAt pA clicks) := by
  have moves : (List.zipWith moveAt pA clicks).length = clicks.length := by
    rw [List.length_zipWith, same, Nat.min_self]
  have cell (i : Nat) : ((List.replicate (2 * clicks.length + 1) (0 : ℚ)).set clicks.length 1).getD i 0 =
      if i = clicks.length then 1 else 0 := by
    rw [List.getD_eq_getElem?_getD, List.getElem?_set, List.length_replicate]
    by_cases here : clicks.length = i
    · rw [if_pos here, if_pos (by omega), if_pos here.symm]
      rfl
    · rw [if_neg here, if_neg (Ne.symm here), List.getElem?_replicate]
      split_ifs <;> rfl
  have width : ((List.replicate (2 * clicks.length + 1) (0 : ℚ)).set clicks.length 1).length =
      2 * clicks.length + 1 := by
    rw [List.length_set, List.length_replicate]
  have room : Walk.Room (List.zipWith moveAt pA clicks).length
      ((List.replicate (2 * clicks.length + 1) (0 : ℚ)).set clicks.length 1) := by
    intro i reached
    rw [cell, ite_ne_right_iff] at reached
    omega
  rw [probabilisticMarginalOutcome, Walk.sum_sides, Walk.weigh_foldl room, Walk.weigh,
    Finset.sum_eq_single clicks.length]
  · rw [cell, if_pos rfl, mul_one]
    simp only [sub_self, zero_add]
  · intro i _ other
    rw [cell, if_neg other, mul_zero]
  · intro outside
    exact absurd (Finset.mem_range.mpr (by omega)) outside

theorem moves_flip (pA : List ℚ) (clicks : List Bool) :
    List.zipWith moveAt (pA.map (1 - ·)) clicks =
      (List.zipWith moveAt pA clicks).map fun m => ⟨m.down, m.up, m.stay⟩ := by
  rw [List.zipWith_map_left, List.map_zipWith]
  congr 1
  funext p click
  cases click <;> simp [moveAt]

/-- **The marginalised credit is the exact expectation**, between -1 and 1, and turns its sign when
the teams change places. -/
theorem probabilisticMarginalOutcome_exact {pA : List ℚ} {clicks : List Bool}
    (same : pA.length = clicks.length) (inside : ∀ p ∈ pA, 0 ≤ p ∧ p ≤ 1) :
    probabilisticMarginalOutcome pA clicks = expectedCredit pA clicks ∧
      (-1 ≤ probabilisticMarginalOutcome pA clicks ∧ probabilisticMarginalOutcome pA clicks ≤ 1) ∧
      probabilisticMarginalOutcome (pA.map (1 - ·)) clicks = -probabilisticMarginalOutcome pA clicks := by
  have weights : ∀ m ∈ List.zipWith moveAt pA clicks, 0 ≤ m.up ∧ 0 ≤ m.down ∧ 0 ≤ m.stay ∧
      m.stay + m.up + m.down = 1 := by
    intro m mem
    rw [← List.map_uncurry_zip_eq_zipWith] at mem
    obtain ⟨⟨p, click⟩, place, rfl⟩ := List.mem_map.mp mem
    obtain ⟨low, high⟩ := inside p (List.of_mem_zip place).1
    cases click
    · simp [moveAt]
    · simp [moveAt, low, high]
  have sign_le (x : Int) : (x.sign : ℚ) ≤ 1 := by
    rcases Int.sign_trichotomy x with one | zero | minus <;> simp [*]
  rw [outcome_eq_expect same]
  refine ⟨expect_moves same _, ⟨?_, Walk.expect_le sign_le weights⟩, ?_⟩
  · have turned : ∀ x : Int, -(x.sign : ℚ) ≤ 1 := fun x => by
      have flipped := sign_le (-x)
      rwa [Int.sign_neg, Int.cast_neg] at flipped
    have upper := Walk.expect_le turned weights
    rw [Walk.expect_neg] at upper
    exact neg_le.mp upper
  · rw [outcome_eq_expect (by rwa [List.length_map]), moves_flip, Walk.expect_flip, ← Walk.expect_neg]
    simp only [Int.sign_neg, Int.cast_neg]

/-- Three positions, two of them clicked. -/
theorem probabilisticMarginalOutcome_exact_three :
    probabilisticMarginalOutcome [1 / 2, 1 / 3, 1] [true, false, true] =
      expectedCredit [1 / 2, 1 / 3, 1] [true, false, true] :=
  (probabilisticMarginalOutcome_exact (by rfl) (by norm_num)).1

end HybridSearch.Clicks
