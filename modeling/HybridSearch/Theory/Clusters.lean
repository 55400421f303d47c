/-
# Theory.Clusters -- points in clusters: the nearest place, sums by label, means

What a clustering needs, apart from any data layout.

* `nearest` scans places for the least distance; the first place wins a tie
  (`nearest_spec`).
* `scatter` adds values to the places of their labels; a place gets the sum over its
  label (`scatter_apply`).  Chunks of a range put together are the range
  (`flatMap_chunks`), so chunked sums add up (`sum_chunks`).
* The mean minimises a sum of squared errors (`sum_sq_mean_le`).
-/
import Mathlib.Algebra.BigOperators.Intervals
import Mathlib.Algebra.BigOperators.Field
import Mathlib.Algebra.Order.BigOperators.Group.Finset
import Mathlib.Order.WithBot
import Mathlib.Tactic

namespace HybridSearch.Theory.Clusters

set_option autoImplicit false

/-! ## The nearest place -/

section Nearest

variable {K : Type} [LinearOrder K]

/-- The first of `k` places with the least distance, and that distance. -/
def nearest (d : Nat → K) : Nat → Nat × WithTop K
  | 0 => (0, ⊤)
  | k + 1 =>
      if (d k : WithTop K) < (nearest d k).2 then (k, (d k : WithTop K)) else nearest d k

/-- **The scan finds the least distance**, at its first place. -/
theorem nearest_spec (d : Nat → K) {k : Nat} (positive : 0 < k) :
    (nearest d k).1 < k ∧ (nearest d k).2 = d (nearest d k).1 ∧
      (∀ j < k, d (nearest d k).1 ≤ d j) ∧ ∀ j < (nearest d k).1, d (nearest d k).1 < d j := by
  induction k with
  | zero => omega
  | succ k ih =>
      rcases Nat.eq_zero_or_pos k with rfl | k_pos
      · have first : nearest d 1 = (0, (d 0 : WithTop K)) := by simp [nearest]
        rw [first]
        refine ⟨Nat.one_pos, rfl, ?_, fun j before => absurd before (Nat.not_lt_zero j)⟩
        intro j inside
        rw [Nat.lt_one_iff.mp inside]
      · obtain ⟨below, value, least, first⟩ := ih k_pos
        unfold nearest
        split_ifs with closer
        · rw [value, WithTop.coe_lt_coe] at closer
          refine ⟨Nat.lt_succ_self k, rfl, ?_, ?_⟩
          · intro j inside
            rcases Nat.lt_succ_iff_lt_or_eq.mp inside with earlier | rfl
            · exact closer.le.trans (least j earlier)
            · exact le_rfl
          · intro j before
            exact closer.trans_le (least j before)
        · rw [value, WithTop.coe_lt_coe] at closer
          refine ⟨below.trans (Nat.lt_succ_self k), value, ?_, first⟩
          intro j inside
          rcases Nat.lt_succ_iff_lt_or_eq.mp inside with earlier | rfl
          · exact least j earlier
          · exact not_lt.mp closer

end Nearest

/-! ## Sums by label -/

section Scatter

variable {ι M : Type} [AddCommMonoid M]

/-- Add every value to the place of its label. -/
def scatter (label : ι → Nat) (f : ι → M) (start : Nat → M) (is : List ι) : Nat → M :=
  is.foldl (fun sums i => Function.update sums (label i) (sums (label i) + f i)) start

/-- **A place gets the sum over its label.** -/
theorem scatter_apply (label : ι → Nat) (f : ι → M) (start : Nat → M) (is : List ι) (j : Nat) :
    scatter label f start is j =
      start j + ((is.filter fun i => decide (label i = j)).map f).sum := by
  induction is generalizing start with
  | nil => simp [scatter]
  | cons i rest ih =>
      have step := ih (Function.update start (label i) (start (label i) + f i))
      unfold scatter at step ⊢
      rw [List.foldl_cons, step]
      by_cases here : label i = j
      · subst here
        simp [add_assoc]
      · simp [here, Function.update_of_ne (Ne.symm here)]

/-- Chunk `c` of the first `n` numbers, `per` numbers to a chunk. -/
def chunk (n per c : Nat) : List Nat := List.range' (c * per) (min n ((c + 1) * per) - c * per)

theorem flatMap_chunks (n per m : Nat) :
    (List.range m).flatMap (chunk n per) = List.range (min n (m * per)) := by
  induction m with
  | zero => simp
  | succ m ih =>
      rw [List.range_succ, List.flatMap_append, ih, List.flatMap_singleton, chunk]
      have grows : m * per ≤ (m + 1) * per := Nat.mul_le_mul_right _ (Nat.le_succ m)
      rcases Nat.le_total (m * per) n with le | ge
      · have together := @List.range'_append_1 0 (m * per) (min n ((m + 1) * per) - m * per)
        rw [Nat.zero_add] at together
        rw [Nat.min_eq_right le, List.range_eq_range', List.range_eq_range', together]
        congr 1
        omega
      · rw [Nat.min_eq_left ge, Nat.min_eq_left (ge.trans grows), Nat.sub_eq_zero_of_le ge]
        simp

/-- **Chunked sums add up** to the sum over the whole range. -/
theorem sum_chunks {n per m : Nat} (enough : n ≤ m * per) (label : Nat → Nat) (f : Nat → M)
    (j : Nat) :
    ((List.range m).map fun c => scatter label f 0 (chunk n per c) j).sum =
      ∑ i ∈ Finset.range n with label i = j, f i := by
  have each (c : Nat) : scatter label f 0 (chunk n per c) j =
      (((chunk n per c).filter fun i => decide (label i = j)).map f).sum := by
    rw [scatter_apply, Pi.zero_apply, zero_add]
  have whole : ((List.range m).map fun c => scatter label f 0 (chunk n per c) j).sum =
      (((List.range n).filter fun i => decide (label i = j)).map f).sum := by
    have range := flatMap_chunks n per m
    rw [Nat.min_eq_left enough] at range
    rw [← range]
    generalize List.range m = cs
    induction cs with
    | nil => rfl
    | cons c cs ih =>
        rw [List.map_cons, List.sum_cons, ih, each, List.flatMap_cons, List.filter_append,
          List.map_append, List.sum_append]
  rw [whole, Finset.sum_eq_multiset_sum]
  simp only [Finset.filter_val, Finset.range_val, Multiset.range, Multiset.filter_coe,
    Multiset.map_coe, Multiset.sum_coe]

/-- A sum over rows of `d` places each. -/
theorem sum_range_mul (f : Nat → M) (m d : Nat) :
    ∑ i ∈ Finset.range (m * d), f i =
      ∑ r ∈ Finset.range m, ∑ t ∈ Finset.range d, f (r * d + t) := by
  induction m with
  | zero => simp
  | succ m ih => rw [Nat.succ_mul, Finset.sum_range_add, ih, Finset.sum_range_succ]

end Scatter

/-! ## Means -/

section Mean

variable {ι K : Type} [Field K] [LinearOrder K] [IsStrictOrderedRing K]

/-- **The mean minimises the squared error.** -/
theorem sum_sq_mean_le (s : Finset ι) (x : ι → K) (c : K) :
    ∑ i ∈ s, (x i - (∑ i ∈ s, x i) / s.card) ^ 2 ≤ ∑ i ∈ s, (x i - c) ^ 2 := by
  rcases s.eq_empty_or_nonempty with rfl | nonempty
  · simp
  · have positive : (0 : K) < s.card := by exact_mod_cast nonempty.card_pos
    generalize mean : (∑ i ∈ s, x i) / s.card = m
    have total : ∑ i ∈ s, x i = s.card * m := by
      rw [← mean]
      field_simp
    have expand (e : K) : ∑ i ∈ s, (x i - e) ^ 2 =
        ∑ i ∈ s, x i ^ 2 - 2 * e * (s.card * m) + s.card * e ^ 2 := by
      rw [← total, Finset.mul_sum, ← Finset.sum_sub_distrib, ← nsmul_eq_mul, ← Finset.sum_const,
        ← Finset.sum_add_distrib]
      exact Finset.sum_congr rfl fun i _ => by ring
    rw [expand, expand]
    nlinarith [mul_nonneg positive.le (sq_nonneg (m - c))]

end Mean

end HybridSearch.Theory.Clusters
