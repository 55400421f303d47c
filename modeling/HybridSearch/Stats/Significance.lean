/-
# Stats.Significance -- Holm's correction (py/hybridsearch/stats/significance.py)

`holmBonferroni` sorts the p-values, weighs each with the number of hypotheses that are
left, takes the running maximum, caps it at one, and scatters it back to the order of the
input.  Exact arithmetic; arrays are lists.

The adjusted value of a hypothesis has a form without any order in it (`adjusted_le_iff`).
That it agrees with the sequential rule, and that equal p-values and permutations are
treated alike, follow from it.
-/
import HybridSearch.Theory.Ranking
import HybridSearch.Theory.StepDown
import Mathlib.Algebra.Order.Field.Rat
import Mathlib.Tactic.Linarith

namespace HybridSearch.Stats

open HybridSearch.Theory

set_option autoImplicit false

/-- `into[order] = vals`. -/
def scatter {α : Type} (order : List Nat) (vals into : List α) : List α :=
  (order.zip vals).foldl (fun a entry => a.set entry.1 entry.2) into

/-- `np.argsort(p, kind="stable")`. -/
def ascending (p : List ℚ) : List Nat :=
  Ranking.argsort p.length fun i j => decide (p.getD i 0 ≤ p.getD j 0)

/-- The adjusted p-values in ascending order of `p`. -/
def adjSorted (p : List ℚ) (order : List Nat) : List ℚ :=
  StepDown.runningMax ((List.range p.length).map fun i : Nat =>
    min 1 (((p.length : ℚ) - i) * p.getD (order.getD i 0) 0))

/-- `holm_bonferroni`; the places of `np.empty` are all written. -/
def holmBonferroni (p : List ℚ) (alpha : ℚ) : List ℚ × List Bool :=
  if p.length = 0 then (p, [])
  else
    let order := ascending p
    let adj := scatter order (adjSorted p order) (List.replicate p.length 0)
    (adj, adj.map fun a => decide (a ≤ alpha))

/-- The sequential rule, from the place `i` on: reject until a test fails. -/
def sequential (alpha : ℚ) (p : List ℚ) : Nat → List Nat → List Nat
  | _, [] => []
  | i, h :: rest =>
      if ((p.length : ℚ) - i) * p.getD h 0 ≤ alpha then h :: sequential alpha p (i + 1) rest else []

/-! ## Arrays -/

section Scatter

variable {α : Type} {vals into : List α}

theorem length_scatter (order : List Nat) : (scatter order vals into).length = into.length := by
  rw [scatter]
  induction order.zip vals generalizing into with
  | nil => rfl
  | cons entry rest ih => rw [List.foldl_cons, ih, List.length_set]

/-- Every place that is named once holds its value. -/
theorem getD_scatter {order : List Nat} (nodup : order.Nodup) (same : vals.length = order.length)
    (inside : ∀ o ∈ order, o < into.length) {i : Nat} (less : i < order.length) (d : α) :
    (scatter order vals into).getD (order.getD i 0) d = vals.getD i d := by
  induction order generalizing vals into i with
  | nil => exact absurd less (Nat.not_lt_zero i)
  | cons o rest ih =>
      obtain ⟨apart, nodup'⟩ := List.nodup_cons.mp nodup
      cases vals with
      | nil => cases same
      | cons v vals =>
          have same' : vals.length = rest.length := Nat.succ.inj same
          have inside' : ∀ o' ∈ rest, o' < (into.set o v).length := fun o' mem => by
            rw [List.length_set]
            exact inside o' (List.mem_cons_of_mem _ mem)
          have step : scatter (o :: rest) (v :: vals) into = scatter rest vals (into.set o v) := rfl
          rw [step]
          cases i with
          | zero =>
              -- nothing that follows is written here
              have kept : ∀ (places : List (Nat × α)) (a : List α), (∀ e ∈ places, e.1 ≠ o) →
                  (places.foldl (fun a entry => a.set entry.1 entry.2) a).getD o d = a.getD o d := by
                intro places
                induction places with
                | nil => exact fun a _ => rfl
                | cons e places keeps =>
                    intro a other
                    rw [List.foldl_cons, keeps _ fun e' mem => other e' (List.mem_cons_of_mem _ mem)]
                    rw [List.getD_eq_getElem?_getD, List.getD_eq_getElem?_getD,
                      List.getElem?_set_ne (other e List.mem_cons_self)]
              rw [List.getD_cons_zero, List.getD_cons_zero, scatter, kept]
              · rw [List.getD_eq_getElem?_getD, List.getElem?_set_self (inside o List.mem_cons_self)]
                rfl
              · rintro ⟨o', v'⟩ mem rfl
                exact apart (List.of_mem_zip mem).1
          | succ i =>
              rw [List.getD_cons_succ, List.getD_cons_succ]
              exact ih nodup' same' inside' (Nat.succ_lt_succ_iff.mp less)

end Scatter

/-! ## The order-free form -/

/-- An order of the hypotheses with ascending p-values. -/
structure Ascends (p : List ℚ) (order : List Nat) : Prop where
  perm : order.Perm (List.range p.length)
  sorted : order.Pairwise fun i j => p.getD i 0 ≤ p.getD j 0

theorem ascends_ascending (p : List ℚ) : Ascends p (ascending p) where
  perm := Ranking.argsort_perm _ _
  sorted := by
    have stable := @Ranking.argsort_stable p.length (fun i j => decide (p.getD i 0 ≤ p.getD j 0))
      (fun a b c first second => by
        rw [decide_eq_true_eq] at *
        exact first.trans second)
      (fun a b => by
        rw [Bool.or_eq_true, decide_eq_true_eq, decide_eq_true_eq]
        exact le_total _ _)
    exact stable.imp fun both => of_decide_eq_true both.1

/-- Every p-value up to `y` passes with the number of p-values below it. -/
def Passes (p : List ℚ) (b y : ℚ) : Prop :=
  ∀ x ∈ p, x ≤ y → ((p.length : ℚ) - p.countP fun z => decide (z < x)) * x ≤ b

theorem Passes.mono {p : List ℚ} {b y y' : ℚ} (passes : Passes p b y') (le : y ≤ y') : Passes p b y :=
  fun x mem below => passes x mem (below.trans le)

section Sorted

variable {p : List ℚ} {order : List Nat} (ascends : Ascends p order) (positive : ∀ x ∈ p, 0 ≤ x)

include ascends

theorem Ascends.length_eq : order.length = p.length := by
  rw [ascends.perm.length_eq, List.length_range]

theorem Ascends.values_perm : (order.map fun i => p.getD i 0).Perm p := by
  refine (ascends.perm.map _).trans (List.Perm.of_eq (List.ext_getElem ?_ ?_))
  · rw [List.length_map, List.length_range]
  · intro i below below'
    rw [List.getElem_map, List.getElem_range, List.getD_eq_getElem _ _ below']

include positive

/-- **The tests up to a place**, in any ascending order. -/
theorem Ascends.tests_iff {i : Nat} (inside : i < order.length) (b : ℚ) :
    (∀ j ≤ i, ((p.length : ℚ) - j) * p.getD (order.getD j 0) 0 ≤ b) ↔
      Passes p b (p.getD (order.getD i 0) 0) := by
  have perm := ascends.values_perm
  have sorted : (order.map fun i => p.getD i 0).Pairwise (· ≤ ·) := List.pairwise_map.mpr ascends.sorted
  have size : (order.map fun i => p.getD i 0).length = order.length := List.length_map _
  have value {j : Nat} (below : j < order.length) :
      (order.map fun i => p.getD i 0).get ⟨j, size.symm ▸ below⟩ = p.getD (order.getD j 0) 0 := by
    rw [List.get_eq_getElem, List.getElem_map, List.getD_eq_getElem _ _ below]
  have falls : ∀ x ∈ order.map fun i => p.getD i 0, ∀ i j : Nat, i ≤ j →
      ((p.length : ℚ) - j) * x ≤ ((p.length : ℚ) - i) * x := by
    intro x mem i j le
    have cast : (i : ℚ) ≤ j := Nat.cast_le.mpr le
    exact mul_le_mul_of_nonneg_right (by linarith) (positive x (perm.mem_iff.mp mem))
  have tests := StepDown.prefix_iff sorted falls (size.symm ▸ inside) (b := b)
  rw [Passes]
  constructor
  · intro all x mem le
    rw [← perm.countP_eq]
    refine tests.mp (fun j below => ?_) x (perm.mem_iff.mpr mem) (le.trans_eq (value inside).symm)
    rw [value (below.trans_lt inside)]
    exact all j below
  · intro all j le
    have test := tests.mpr (fun x mem below => ?_) j le
    · rwa [value (le.trans_lt inside)] at test
    · rw [perm.countP_eq]
      exact all x (perm.mem_iff.mp mem) (below.trans_eq (value inside))

end Sorted

/-- What the sequential rule rejects, from any place on. -/
theorem mem_sequential {alpha : ℚ} {p : List ℚ} {i : Nat} {order : List Nat} {h : Nat} :
    h ∈ sequential alpha p i order ↔ ∃ k < order.length, order.getD k 0 = h ∧
      ∀ j ≤ k, ((p.length : ℚ) - (i + j : Nat)) * p.getD (order.getD j 0) 0 ≤ alpha := by
  induction order generalizing i with
  | nil => exact iff_of_false List.not_mem_nil fun ⟨k, less, _⟩ => absurd less (Nat.not_lt_zero k)
  | cons o rest ih =>
      rw [sequential]
      split_ifs with test
      · rw [List.mem_cons, ih]
        constructor
        · rintro (rfl | ⟨k, less, place_eq, all⟩)
          · refine ⟨0, Nat.succ_pos _, rfl, fun j le => ?_⟩
            rw [Nat.le_zero.mp le]
            exact test
          · refine ⟨k + 1, Nat.succ_lt_succ less, place_eq, fun j le => ?_⟩
            cases j with
            | zero => exact test
            | succ j =>
                have next := all j (Nat.le_of_succ_le_succ le)
                rwa [Nat.add_right_comm, Nat.add_assoc] at next
        · rintro ⟨k, less, place_eq, all⟩
          cases k with
          | zero => exact Or.inl place_eq.symm
          | succ k =>
              refine Or.inr ⟨k, Nat.succ_lt_succ_iff.mp less, place_eq, fun j le => ?_⟩
              have next := all (j + 1) (Nat.succ_le_succ le)
              rwa [← Nat.add_assoc, Nat.add_right_comm] at next
      · refine iff_of_false List.not_mem_nil ?_
        rintro ⟨k, -, -, all⟩
        exact test (all 0 (Nat.zero_le k))

/-! ## The adjusted values -/

section Adjusted

variable {p : List ℚ} {alpha : ℚ}

theorem length_adjusted : (holmBonferroni p alpha).1.length = p.length := by
  rw [holmBonferroni]
  split_ifs
  · rfl
  · exact (length_scatter _).trans List.length_replicate

theorem reject_eq : (holmBonferroni p alpha).2 = (holmBonferroni p alpha).1.map fun a => decide (a ≤ alpha) := by
  rw [holmBonferroni]
  split_ifs with empty
  · rw [List.length_eq_zero_iff.mp empty]
    rfl
  · rfl

theorem reject_iff {h : Nat} (inside : h < p.length) :
    (holmBonferroni p alpha).2.getD h false = true ↔ (holmBonferroni p alpha).1.getD h 0 ≤ alpha := by
  have inside' : h < (holmBonferroni p alpha).1.length := by rwa [length_adjusted]
  rw [reject_eq, List.getD_eq_getElem _ _ (by rwa [List.length_map]), List.getElem_map,
    List.getD_eq_getElem _ _ inside', decide_eq_true_eq]

/-- **The adjusted value of a hypothesis**, without any order. -/
theorem adjusted_le_iff (positive : ∀ x ∈ p, 0 ≤ x) {h : Nat} (inside : h < p.length) {b : ℚ} :
    (holmBonferroni p alpha).1.getD h 0 ≤ b ↔ 1 ≤ b ∨ Passes p b (p.getD h 0) := by
  have ascends := ascends_ascending p
  have size := ascends.length_eq
  obtain ⟨i, below, place_eq⟩ := List.getElem_of_mem (ascends.perm.mem_iff.mpr (List.mem_range.mpr inside))
  have place : (ascending p).getD i 0 = h := (List.getD_eq_getElem _ _ below).trans place_eq
  have length_ne : ¬p.length = 0 := Nat.ne_zero_of_lt inside
  have steps : ((List.range p.length).map fun i : Nat =>
      min 1 (((p.length : ℚ) - i) * p.getD ((ascending p).getD i 0) 0)).length = p.length := by
    rw [List.length_map, List.length_range]
  have step {j : Nat} (less : j < p.length) : ((List.range p.length).map fun i : Nat =>
      min 1 (((p.length : ℚ) - i) * p.getD ((ascending p).getD i 0) 0)).getD j 0 =
        min 1 (((p.length : ℚ) - j) * p.getD ((ascending p).getD j 0) 0) := by
    rw [List.getD_eq_getElem _ _ (by rwa [steps]), List.getElem_map, List.getElem_range]
  have adjusted : (holmBonferroni p alpha).1.getD h 0 = (adjSorted p (ascending p)).getD i 0 := by
    rw [holmBonferroni, if_neg length_ne, ← place]
    refine getD_scatter (ascends.perm.nodup_iff.mpr List.nodup_range) ?_ ?_ below 0
    · rw [adjSorted, StepDown.length_runningMax, steps, size]
    · intro o mem
      rw [List.length_replicate]
      exact List.mem_range.mp (ascends.perm.mem_iff.mp mem)
  have less : i < p.length := size ▸ below
  rw [adjusted, adjSorted, StepDown.runningMax_le_iff (by rwa [steps]), ← place,
    ← ascends.tests_iff positive below b]
  constructor
  · intro all
    by_contra neither
    obtain ⟨small, fails⟩ := not_or.mp neither
    refine fails fun j le => ?_
    have test := all j le
    rw [step (le.trans_lt less), min_le_iff] at test
    exact test.resolve_left small
  · rintro (large | all) j le
    · rw [step (le.trans_lt less)]
      exact (min_le_left _ _).trans large
    · rw [step (le.trans_lt less)]
      exact (min_le_right _ _).trans (all j le)

end Adjusted

/-- Two inputs that are permutations of each other pass the same tests. -/
theorem passes_perm {p q : List ℚ} (perm : q.Perm p) {b y : ℚ} : Passes q b y ↔ Passes p b y := by
  rw [Passes, Passes, perm.length_eq]
  refine forall_congr' fun x => ?_
  rw [perm.mem_iff, perm.countP_eq]

/-- **Holm's correction is the sequential procedure**, whatever the order of equal p-values; the
adjusted values lie between the p-values and one, keep their order, and follow a permutation. -/
theorem holmBonferroni_sequential {p : List ℚ} (range : ∀ x ∈ p, 0 ≤ x ∧ x ≤ 1) {alpha : ℚ}
    (level : 0 < alpha ∧ alpha < 1) :
    (∀ order, Ascends p order → ∀ h < p.length,
      ((holmBonferroni p alpha).2.getD h false = true ↔ h ∈ sequential alpha p 0 order)) ∧
    (∀ h < p.length, p.getD h 0 ≤ (holmBonferroni p alpha).1.getD h 0 ∧
      (holmBonferroni p alpha).1.getD h 0 ≤ 1) ∧
    (∀ h < p.length, ∀ k < p.length,
      (p.getD h 0 ≤ p.getD k 0 →
        (holmBonferroni p alpha).1.getD h 0 ≤ (holmBonferroni p alpha).1.getD k 0) ∧
      (p.getD h 0 = p.getD k 0 →
        (holmBonferroni p alpha).1.getD h 0 = (holmBonferroni p alpha).1.getD k 0)) ∧
    ∀ perm : List Nat, perm.Perm (List.range p.length) →
      holmBonferroni (perm.map fun h => p.getD h 0) alpha =
        (perm.map fun h => (holmBonferroni p alpha).1.getD h 0,
          perm.map fun h => (holmBonferroni p alpha).2.getD h false) := by
  have positive : ∀ x ∈ p, 0 ≤ x := fun x mem => (range x mem).1
  have value {h : Nat} (inside : h < p.length) : p.getD h 0 ∈ p := by
    rw [List.getD_eq_getElem _ _ inside]
    exact List.getElem_mem inside
  have keeps {h k : Nat} (inside : h < p.length) (inside' : k < p.length)
      (le : p.getD h 0 ≤ p.getD k 0) :
      (holmBonferroni p alpha).1.getD h 0 ≤ (holmBonferroni p alpha).1.getD k 0 := by
    have own := (@adjusted_le_iff p alpha positive _ inside' _).mp le_rfl
    exact (adjusted_le_iff positive inside).mpr (own.imp id fun passes => passes.mono le)
  refine ⟨?_, ?_, ?_, ?_⟩
  · intro order ascends h inside
    rw [reject_iff inside, adjusted_le_iff positive inside, mem_sequential]
    have size := ascends.length_eq
    constructor
    · intro either
      have passes := either.resolve_left (not_le.mpr level.2)
      obtain ⟨k, below, place_eq⟩ := List.getElem_of_mem
        (ascends.perm.mem_iff.mpr (List.mem_range.mpr inside))
      have place : order.getD k 0 = h := (List.getD_eq_getElem _ _ below).trans place_eq
      refine ⟨k, below, place, fun j le => ?_⟩
      rw [Nat.zero_add]
      exact (ascends.tests_iff positive below alpha).mpr (place ▸ passes) j le
    · rintro ⟨k, below, rfl, all⟩
      right
      rw [← ascends.tests_iff positive below alpha]
      intro j le
      have test := all j le
      rwa [Nat.zero_add] at test
  · intro h inside
    refine ⟨?_, (adjusted_le_iff positive inside).mpr (Or.inl le_rfl)⟩
    rcases (@adjusted_le_iff p alpha positive _ inside _).mp le_rfl with large | passes
    · exact (range _ (value inside)).2.trans large
    · refine le_trans ?_ (passes _ (value inside) le_rfl)
      -- the hypothesis itself is not below its p-value
      have fewer : (p.countP fun z => decide (z < p.getD h 0)) + 1 ≤ p.length := by
        refine Nat.succ_le_of_lt (lt_of_le_of_ne List.countP_le_length fun all => ?_)
        have own := List.countP_eq_length.mp all _ (value inside)
        exact lt_irrefl _ (of_decide_eq_true own)
      have weight : (1 : ℚ) ≤ (p.length : ℚ) - (p.countP fun z => decide (z < p.getD h 0) : Nat) := by
        have cast : ((p.countP fun z => decide (z < p.getD h 0) : Nat) : ℚ) + 1 ≤ p.length := by
          exact_mod_cast fewer
        linarith
      exact le_mul_of_one_le_left (positive _ (value inside)) weight
  · intro h inside k inside'
    exact ⟨keeps inside inside', fun same =>
      le_antisymm (keeps inside inside' same.le) (keeps inside' inside same.ge)⟩
  · intro perm is_perm
    have permuted : (perm.map fun h => p.getD h 0).Perm p := by
      refine (is_perm.map _).trans (List.Perm.of_eq (List.ext_getElem ?_ ?_))
      · rw [List.length_map, List.length_range]
      · intro i below below'
        rw [List.getElem_map, List.getElem_range, List.getD_eq_getElem _ _ below']
    have adjusted : (holmBonferroni (perm.map fun h => p.getD h 0) alpha).1 =
        perm.map fun h => (holmBonferroni p alpha).1.getD h 0 := by
      refine List.ext_getElem (by rw [length_adjusted, List.length_map, List.length_map]) ?_
      intro i below below'
      have inside : i < perm.length := by rwa [List.length_map] at below'
      have inside' : perm[i] < p.length :=
        List.mem_range.mp (is_perm.mem_iff.mp (List.getElem_mem inside))
      rw [List.getElem_map, ← List.getD_eq_getElem _ 0 below]
      refine eq_of_forall_ge_iff fun b => ?_
      rw [adjusted_le_iff (fun x mem => positive x (permuted.mem_iff.mp mem))
        (by rwa [List.length_map]), adjusted_le_iff positive inside', passes_perm permuted]
      rw [List.getD_eq_getElem _ 0 (by rwa [List.length_map]), List.getElem_map]
    refine Prod.ext adjusted ?_
    rw [reject_eq, adjusted, List.map_map]
    refine List.map_congr_left fun h mem => ?_
    have inside : h < p.length := List.mem_range.mp (is_perm.mem_iff.mp mem)
    exact Bool.eq_iff_iff.mpr ((decide_eq_true_iff).trans (reject_iff inside).symm)

/-- A tie for the second place, in the order that is not the stable one. -/
theorem holmBonferroni_sequential_tie :
    (holmBonferroni [1 / 100, 1 / 25, 1 / 25] (1 / 20)).2.getD 2 false = true ↔
      2 ∈ sequential (1 / 20) [1 / 100, 1 / 25, 1 / 25] 0 [0, 2, 1] := by
  have range : ∀ x ∈ [1 / 100, 1 / 25, (1 / 25 : ℚ)], 0 ≤ x ∧ x ≤ 1 := by norm_num
  refine (holmBonferroni_sequential range ⟨by norm_num, by norm_num⟩).1 [0, 2, 1] ⟨by decide, ?_⟩ 2 (by decide)
  norm_num

end HybridSearch.Stats
