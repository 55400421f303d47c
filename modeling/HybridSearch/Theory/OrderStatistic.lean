/-
# Theory.OrderStatistic -- the smallest elements of a list, and a histogram of it

`kth xs r` is the `r`-th smallest element, counted from 1.  A property that smaller
elements share holds of it exactly when it holds of at least `r` elements
(`kth_iff`).

`firstReaching` walks over counts until their sum reaches a rank.  Over the
histogram of a monotone key it finds the key of the element of that rank
(`firstReaching_histogram`).
-/
import Mathlib.Data.List.Sort
import Mathlib.Order.Basic
import Mathlib.Tactic

namespace HybridSearch.Theory.OrderStatistic

set_option autoImplicit false

section Kth

variable {α : Type} [LinearOrder α]

def kth (xs : List α) (r : Nat) : Option α := (xs.mergeSort fun x y => decide (x ≤ y))[r - 1]?

theorem kth_of_sorted {xs : List α} (sorted : xs.Pairwise (· ≤ ·)) (r : Nat) : kth xs r = xs[r - 1]? := by
  rw [kth, List.mergeSort_of_pairwise (sorted.imp fun le => decide_eq_true le)]

theorem sorted_mergeSort (xs : List α) :
    (xs.mergeSort fun x y => decide (x ≤ y)).Pairwise (· ≤ ·) := by
  have sorted := @List.pairwise_mergeSort α (fun x y => decide (x ≤ y))
    (fun x y z xy yz => by
      simp only [decide_eq_true_eq] at *
      exact xy.trans yz)
    (fun x y => by
      simp only [Bool.or_eq_true, decide_eq_true_eq]
      exact le_total x y) xs
  simpa using sorted

theorem kth_isSome {xs : List α} {r : Nat} (positive : 0 < r) (le : r ≤ xs.length) :
    ∃ x, kth xs r = some x := by
  have inside : r - 1 < (xs.mergeSort fun x y => decide (x ≤ y)).length := by
    rw [List.length_mergeSort]
    omega
  exact ⟨_, List.getElem?_eq_getElem inside⟩

theorem mem_of_kth {xs : List α} {r : Nat} {x : α} (found : kth xs r = some x) : x ∈ xs :=
  List.mem_mergeSort.mp (List.mem_of_getElem? found)

/-- **A property that smaller elements share** holds of the `r`-th smallest element exactly
when it holds of `r` elements. -/
theorem kth_iff {xs : List α} {r : Nat} {x : α} (positive : 0 < r) (found : kth xs r = some x)
    {P : α → Bool} (down : ∀ x y, x ≤ y → P y = true → P x = true) :
    P x = true ↔ r ≤ xs.countP P := by
  have same := (List.mergeSort_perm xs fun x y => decide (x ≤ y)).countP_eq P
  have sorted := sorted_mergeSort xs
  unfold kth at found
  generalize (xs.mergeSort fun x y => decide (x ≤ y)) = s at *
  obtain ⟨inside, is⟩ := List.getElem?_eq_some_iff.mp found
  have parts : s = s.take (r - 1) ++ x :: s.drop r := by
    have back := List.drop_eq_getElem_cons inside
    rw [is, Nat.sub_add_cancel positive] at back
    rw [← back, List.take_append_drop]
  rw [← same]
  constructor
  · intro holds
    -- the first `r` elements are no greater
    have all : (s.take r).countP P = r := by
      have size : (s.take r).length = r := by
        rw [List.length_take]
        omega
      have whole : ∀ y ∈ s.take r, P y = true := by
        intro y mem
        obtain ⟨i, before, rfl⟩ := List.mem_take_iff_getElem.mp mem
        refine down _ x ?_ holds
        rcases Nat.eq_or_lt_of_le (show i ≤ r - 1 by omega) with rfl | less
        · exact is.le
        · rw [← is]
          exact List.pairwise_iff_getElem.mp sorted i (r - 1) (by omega) inside less
      exact (List.countP_eq_length.mpr whole).trans size
    have part := (List.take_sublist r s).countP_le (p := P)
    omega
  · intro many
    by_contra fails
    -- from the `r`-th on every element is greater
    have none : (x :: s.drop r).countP P = 0 := by
      rw [List.countP_eq_zero]
      intro y mem holds
      refine fails (down x y ?_ holds)
      rcases List.mem_cons.mp mem with rfl | later
      · exact le_rfl
      · rw [parts, List.pairwise_append, List.pairwise_cons] at sorted
        exact sorted.2.1.1 y later
    have front : (s.take (r - 1)).countP P ≤ r - 1 :=
      List.countP_le_length.trans (List.length_take_le _ _)
    have total : s.countP P = (s.take (r - 1)).countP P + (x :: s.drop r).countP P := by
      rw [← List.countP_append, ← parts]
    omega

/-- Higher ranks have greater elements. -/
theorem kth_mono {xs : List α} {r r' : Nat} {x x' : α} (le : r ≤ r') (found : kth xs r = some x)
    (found' : kth xs r' = some x') : x ≤ x' := by
  obtain ⟨inside, rfl⟩ := List.getElem?_eq_some_iff.mp found
  obtain ⟨inside', rfl⟩ := List.getElem?_eq_some_iff.mp found'
  rcases Nat.eq_or_lt_of_le (show r - 1 ≤ r' - 1 by omega) with same | less
  · simp only [same, le_refl]
  · exact List.pairwise_iff_getElem.mp (sorted_mergeSort xs) _ _ inside inside' less

end Kth

/-! ## Histograms -/

/-- The place at which the running sum reaches the rank; `cum` is the sum so far. -/
def firstReaching (rank : Nat) : Nat → Nat → List Nat → Option Nat
  | _, _, [] => none
  | cum, i, c :: rest =>
      if rank ≤ cum + c then some i else firstReaching rank (cum + c) (i + 1) rest

theorem firstReaching_eq {rank k : Nat} {counts : List Nat} (inside : k < counts.length)
    (cum i : Nat) (reached : rank ≤ cum + (counts.take (k + 1)).sum)
    (before : ∀ j < k, cum + (counts.take (j + 1)).sum < rank) :
    firstReaching rank cum i counts = some (i + k) := by
  induction counts generalizing k cum i with
  | nil => simp at inside
  | cons c rest ih =>
      rw [firstReaching]
      cases k with
      | zero =>
          rw [if_pos (by simpa using reached)]
          rfl
      | succ k =>
          have first := before 0 (Nat.succ_pos k)
          simp only [List.take_succ_cons, List.take_zero, List.sum_cons, List.sum_nil] at first
          rw [if_neg (by omega), @ih k (by simpa using inside) (cum + c) (i + 1) ?_ ?_]
          · rw [Nat.add_assoc, Nat.add_comm 1]
          · rw [List.take_succ_cons, List.sum_cons] at reached
            omega
          · intro j less
            have later := before (j + 1) (by omega)
            rw [List.take_succ_cons, List.sum_cons] at later
            omega

section Histogram

variable {α : Type} {key : α → Nat}

/-- The counts of the keys below a place. -/
theorem sum_take_histogram {xs : List α} {counts : List Nat}
    (holds : ∀ b < counts.length, counts[b]? = some (xs.countP fun x => decide (key x = b)))
    {k : Nat} (le : k ≤ counts.length) :
    (counts.take k).sum = xs.countP fun x => decide (key x < k) := by
  induction k with
  | zero => simp
  | succ k ih =>
      rw [List.take_add_one, holds k (by omega), List.sum_append, ih (by omega)]
      simp only [Option.toList_some, List.sum_cons, List.sum_nil, Nat.add_zero]
      clear ih holds
      induction xs with
      | nil => rfl
      | cons x xs ih =>
          simp only [List.countP_cons, decide_eq_true_eq]
          split_ifs <;> omega

/-- **The first bucket that reaches a rank** is the key of the element of that rank. -/
theorem firstReaching_histogram [LinearOrder α] (mono : ∀ x y, x ≤ y → key x ≤ key y) {xs : List α}
    {counts : List Nat}
    (holds : ∀ b < counts.length, counts[b]? = some (xs.countP fun x => decide (key x = b)))
    (small : ∀ x ∈ xs, key x < counts.length) {r : Nat} {x : α} (positive : 0 < r)
    (found : kth xs r = some x) : firstReaching r 0 0 counts = some (key x) := by
  have down (k : Nat) : ∀ x y, x ≤ y → decide (key y < k) = true → decide (key x < k) = true := by
    intro x y le less
    rw [decide_eq_true_eq] at less ⊢
    exact lt_of_le_of_lt (mono x y le) less
  have inside := small x (mem_of_kth found)
  have here := @firstReaching_eq r (key x) counts inside 0 0 ?_ ?_
  · rwa [Nat.zero_add] at here
  · rw [Nat.zero_add, sum_take_histogram holds (by omega), ← kth_iff positive found (down _)]
    simp
  · intro j less
    rw [Nat.zero_add, sum_take_histogram holds (by omega), ← not_le,
      ← kth_iff positive found (down _)]
    simp only [decide_eq_true_eq]
    omega

end Histogram

/-! ## Counts taken in parts -/

section Parts

variable {α ι : Type}

theorem sum_indicator (parts : List ι) (p : ι → Bool) :
    (parts.map fun i => if p i = true then 1 else 0).sum = parts.countP p := by
  induction parts with
  | nil => rfl
  | cons i rest ih => rw [List.map_cons, List.sum_cons, ih, List.countP_cons, Nat.add_comm]

/-- **Parts that hold everything once** count together what the whole counts. -/
theorem sum_countP_parts {parts : List ι} {part : ι → α → Bool} {whole : α → Bool} {xs : List α}
    (once : ∀ x ∈ xs, (parts.countP fun i => part i x) = if whole x = true then 1 else 0)
    (P : α → Bool) :
    (parts.map fun i => xs.countP fun x => part i x && P x).sum =
      xs.countP fun x => whole x && P x := by
  induction xs with
  | nil => simp
  | cons x xs ih =>
      have here : (parts.map fun i => if (part i x && P x) = true then 1 else 0).sum =
          if (whole x && P x) = true then 1 else 0 := by
        rw [sum_indicator]
        by_cases holds : P x = true
        · simp only [holds, Bool.and_true]
          exact once x (List.mem_cons_self ..)
        · simp [Bool.not_eq_true _ ▸ holds]
      simp only [List.countP_cons, List.sum_map_add]
      rw [ih fun y mem => once y (List.mem_cons_of_mem _ mem), here]

theorem foldl_add_eq (f : ι → Nat) (parts : List ι) (total : Nat) :
    parts.foldl (fun total i => total + f i) total = total + (parts.map f).sum := by
  induction parts generalizing total with
  | nil => rfl
  | cons i rest ih => rw [List.foldl_cons, ih, List.map_cons, List.sum_cons, Nat.add_assoc]

/-- Columns added up, one row after another. -/
theorem columns_foldl {size : Nat} (row : ι → List Nat) (parts : List ι)
    (sizes : ∀ i ∈ parts, (row i).length = size) (sums : List Nat) (start : sums.length = size) :
    (parts.foldl (fun sums i => List.zipWith (· + ·) sums (row i)) sums).length = size ∧
      ∀ b < size, (parts.foldl (fun sums i => List.zipWith (· + ·) sums (row i)) sums)[b]? =
        some (sums.getD b 0 + (parts.map fun i => (row i).getD b 0).sum) := by
  induction parts generalizing sums with
  | nil =>
      refine ⟨start, ?_⟩
      intro b inside
      rw [← start] at inside
      simp [inside]
  | cons i rest ih =>
      have length : (List.zipWith (· + ·) sums (row i)).length = size := by
        rw [List.length_zipWith, start, sizes i (List.mem_cons_self ..), Nat.min_self]
      obtain ⟨size', columns⟩ := ih (fun j mem => sizes j (List.mem_cons_of_mem _ mem)) _ length
      refine ⟨size', ?_⟩
      intro b inside
      have left : b < sums.length := by rwa [start]
      have right : b < (row i).length := by rwa [sizes i (List.mem_cons_self ..)]
      rw [List.foldl_cons, columns b inside, List.map_cons, List.sum_cons]
      simp only [List.getD_eq_getElem?_getD, List.getElem?_zipWith, List.getElem?_eq_getElem left,
        List.getElem?_eq_getElem right, Option.getD_some]
      rw [Nat.add_assoc]

end Parts

end HybridSearch.Theory.OrderStatistic
