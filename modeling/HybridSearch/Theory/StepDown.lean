/-
# Theory.StepDown -- tests of a sorted list, one after the other, until one fails

A step-down procedure tests the elements of a sorted list in order, each with the number of
elements before it, and stops at the first failure.  Which elements pass does not depend on
the order of equal ones: when the test gets easier with that number, it is enough to test
every element up to a given one with the number of elements below it (`prefix_iff`).
-/
import Mathlib.Data.List.GetD
import Mathlib.Data.List.Sort
import Mathlib.Order.Basic
import Mathlib.Order.MinMax

namespace HybridSearch.Theory.StepDown

set_option autoImplicit false

section Places

variable {α : Type} [LinearOrder α] {s : List α} (sorted : s.Pairwise (· ≤ ·))

include sorted

/-- In a sorted list the elements below `x` come first. -/
theorem countP_le_iff {j : Nat} (inside : j < s.length) {x : α} :
    s.countP (fun y => decide (y < x)) ≤ j ↔ x ≤ s[j] := by
  induction s generalizing j with
  | nil => exact absurd inside (Nat.not_lt_zero j)
  | cons a rest ih =>
      obtain ⟨first, rest_sorted⟩ := List.pairwise_cons.mp sorted
      by_cases less : a < x
      · rw [List.countP_cons_of_pos (p := fun y => decide (y < x)) (by simpa using less)]
        cases j with
        | zero => exact iff_of_false (by omega) (not_le.mpr less)
        | succ j =>
            rw [Nat.succ_le_succ_iff]
            exact ih rest_sorted (Nat.succ_lt_succ_iff.mp inside)
      · have le := not_lt.mp less
        have none_below : rest.countP (fun y => decide (y < x)) = 0 := by
          rw [List.countP_eq_zero]
          intro y mem below
          exact not_le.mpr (of_decide_eq_true below) (le.trans (first y mem))
        rw [List.countP_cons_of_neg (p := fun y => decide (y < x)) (by simpa using le), none_below]
        refine iff_of_true (Nat.zero_le _) (le.trans ?_)
        cases j with
        | zero => exact le_rfl
        | succ j => exact first _ (List.getElem_mem _)

/-- The first place of an element. -/
theorem getElem_countP {x : α} (mem : x ∈ s) :
    ∃ inside : s.countP (fun y => decide (y < x)) < s.length,
      s[s.countP (fun y => decide (y < x))] = x := by
  obtain ⟨k, inside, rfl⟩ := List.getElem_of_mem mem
  have le := (countP_le_iff sorted inside).mpr le_rfl
  refine ⟨le.trans_lt inside, le_antisymm ?_ ?_⟩
  · rcases le.eq_or_lt with same | less
    · simp only [same, le_refl]
    · exact List.pairwise_iff_getElem.mp sorted _ _ _ inside less
  · exact (countP_le_iff sorted (le.trans_lt inside)).mp le_rfl

/-- **All tests up to a place pass** exactly if every element up to the one there passes with the
number of elements below it. -/
theorem prefix_iff {β : Type} [Preorder β] {F : Nat → α → β}
    (falls : ∀ x ∈ s, ∀ i j, i ≤ j → F j x ≤ F i x) {i : Nat} (inside : i < s.length) {b : β} :
    (∀ j (le : j ≤ i), F j (s.get ⟨j, le.trans_lt inside⟩) ≤ b) ↔
      ∀ x ∈ s, x ≤ s[i] → F (s.countP fun y => decide (y < x)) x ≤ b := by
  constructor
  · intro all x mem le
    obtain ⟨there, entry_eq⟩ := getElem_countP sorted mem
    have test := all _ ((countP_le_iff sorted inside).mpr le)
    rw [List.get_eq_getElem, entry_eq] at test
    exact test
  · intro all j le
    have below := (countP_le_iff sorted (le.trans_lt inside)).mpr le_rfl
    refine (falls _ (List.get_mem _ _) _ _ below).trans (all _ (List.get_mem _ _) ?_)
    rcases le.eq_or_lt with rfl | less
    · exact le_rfl
    · exact List.pairwise_iff_getElem.mp sorted _ _ (le.trans_lt inside) inside less

end Places

/-- The maximum so far, at every place. -/
def runningMax {β : Type} [LinearOrder β] : List β → List β
  | [] => []
  | x :: rest => x :: (runningMax rest).map (max x)

theorem length_runningMax {β : Type} [LinearOrder β] (l : List β) : (runningMax l).length = l.length := by
  induction l with
  | nil => rfl
  | cons x rest ih => rw [runningMax, List.length_cons, List.length_map, ih, List.length_cons]

/-- A running maximum is bounded where everything so far is. -/
theorem runningMax_le_iff {β : Type} [LinearOrder β] {l : List β} {b d : β} {i : Nat}
    (inside : i < l.length) : (runningMax l).getD i d ≤ b ↔ ∀ j ≤ i, l.getD j d ≤ b := by
  induction l generalizing i with
  | nil => exact absurd inside (Nat.not_lt_zero i)
  | cons x rest ih =>
      rw [runningMax]
      cases i with
      | zero =>
          rw [List.getD_cons_zero]
          exact ⟨fun bound j le => by rwa [Nat.le_zero.mp le, List.getD_cons_zero],
            fun all => all 0 le_rfl⟩
      | succ i =>
          have inside' := Nat.succ_lt_succ_iff.mp inside
          have there : ((runningMax rest).map (max x)).getD i d = max x ((runningMax rest).getD i d) := by
            have place : i < (runningMax rest).length := by rwa [length_runningMax]
            rw [List.getD_eq_getElem _ _ (by rwa [List.length_map]), List.getElem_map,
              List.getD_eq_getElem _ _ place]
          rw [List.getD_cons_succ, there, max_le_iff, ih inside']
          constructor
          · rintro ⟨first, others⟩ j le
            cases j with
            | zero => exact first
            | succ j => exact others j (Nat.le_of_succ_le_succ le)
          · intro all
            exact ⟨all 0 (Nat.zero_le _), fun j le => all (j + 1) (Nat.succ_le_succ le)⟩

end HybridSearch.Theory.StepDown
