/-
# Theory.Greedy -- greedy selection of elements that do not occlude each other

`select` walks over candidates in order and keeps one unless an earlier kept one
occludes it, up to a bound.  What it keeps is a part of the candidates in their order
(`select_sublist`), no kept element occludes a later one (`select_independent`), and a
candidate is left out only for an earlier kept one or because the bound was reached
(`select_maximal`).

`unique` drops equal neighbours, as on a sorted list.
-/
import Mathlib.Data.List.Nodup
import Mathlib.Data.List.Sort
import Mathlib.Order.Basic

namespace HybridSearch.Theory.Greedy

set_option autoImplicit false

section Select

variable {α : Type} (occludes : α → α → Bool) (bound : Nat)

def select (kept : List α) : List α → List α
  | [] => kept
  | c :: rest =>
      if kept.length < bound then
        if kept.any fun k => occludes k c then select kept rest
        else select (kept ++ [c]) rest
      else kept

variable {occludes bound}

/-- The selection is what was kept before and a part of the candidates. -/
theorem select_sublist (kept rest : List α) :
    ∃ new, select occludes bound kept rest = kept ++ new ∧ new.Sublist rest := by
  induction rest generalizing kept with
  | nil => exact ⟨[], (List.append_nil kept).symm, List.Sublist.refl []⟩
  | cons c rest ih =>
      unfold select
      split_ifs with room occluded
      · obtain ⟨new, is, part⟩ := ih kept
        exact ⟨new, is, part.cons c⟩
      · obtain ⟨new, is, part⟩ := ih (kept ++ [c])
        refine ⟨c :: new, ?_, part.cons_cons c⟩
        rw [is, List.append_assoc, List.singleton_append]
      · exact ⟨[], (List.append_nil kept).symm, List.nil_sublist _⟩

theorem length_select_le {kept : List α} (le : kept.length ≤ bound) (rest : List α) :
    (select occludes bound kept rest).length ≤ bound := by
  induction rest generalizing kept with
  | nil => exact le
  | cons c rest ih =>
      unfold select
      split_ifs with room occluded
      · exact ih le
      · refine ih ?_
        rw [List.length_append, List.length_singleton]
        exact room
      · exact le

/-- **No kept element occludes a later one.** -/
theorem select_independent {kept : List α}
    (independent : kept.Pairwise fun k c => occludes k c = false) (rest : List α) :
    (select occludes bound kept rest).Pairwise fun k c => occludes k c = false := by
  induction rest generalizing kept with
  | nil => exact independent
  | cons c rest ih =>
      unfold select
      split_ifs with room occluded
      · exact ih independent
      · refine ih (List.pairwise_append.mpr ⟨independent, List.pairwise_singleton _ _, ?_⟩)
        intro k mem c' last
        rw [List.mem_singleton.mp last]
        by_contra hides
        exact occluded (List.any_eq_true.mpr ⟨k, mem, Bool.eq_true_of_not_eq_false hides⟩)
      · exact independent

/-- **Why a candidate is left out**: an earlier kept one occludes it, or the bound was reached
before it. -/
theorem select_maximal {before : α → α → Prop} {kept rest : List α}
    (ordered : (kept ++ rest).Pairwise before) {c : α} (mem : c ∈ rest) :
    c ∈ select occludes bound kept rest ∨
    (∃ k ∈ select occludes bound kept rest, before k c ∧ occludes k c = true) ∨
    (bound ≤ (select occludes bound kept rest).length ∧
      ∀ k ∈ select occludes bound kept rest, before k c) := by
  induction rest generalizing kept with
  | nil => cases mem
  | cons d rest ih =>
      have earlier : ∀ k ∈ kept, before k d := by
        intro k old
        exact (List.pairwise_append.mp ordered).2.2 k old d (List.mem_cons_self ..)
      unfold select
      split_ifs with room occluded
      · have ordered' : (kept ++ rest).Pairwise before :=
          ordered.sublist (List.Sublist.append_left (List.sublist_cons_self d rest) kept)
        rcases List.mem_cons.mp mem with rfl | later
        · obtain ⟨k, old, hides⟩ := List.any_eq_true.mp occluded
          obtain ⟨new, is, -⟩ := @select_sublist α occludes bound kept rest
          refine Or.inr (Or.inl ⟨k, ?_, earlier k old, hides⟩)
          rw [is]
          exact List.mem_append_left _ old
        · exact ih ordered' later
      · have ordered' : (kept ++ [d] ++ rest).Pairwise before := by
          rwa [List.append_assoc, List.singleton_append]
        rcases List.mem_cons.mp mem with rfl | later
        · obtain ⟨new, is, -⟩ := @select_sublist α occludes bound (kept ++ [c]) rest
          refine Or.inl ?_
          rw [is]
          exact List.mem_append_left _ (List.mem_append_right _ (List.mem_singleton_self c))
        · exact ih ordered' later
      · refine Or.inr (Or.inr ⟨Nat.le_of_not_lt room, ?_⟩)
        intro k old
        exact (List.pairwise_append.mp ordered).2.2 k old c mem

/-- The first candidate is kept. -/
theorem head_mem_select (positive : 0 < bound) (c : α) (rest : List α) :
    c ∈ select occludes bound [] (c :: rest) := by
  have first : select occludes bound [] (c :: rest) = select occludes bound [c] rest := by
    rw [select, if_pos (show ([] : List α).length < bound from positive)]
    rfl
  obtain ⟨new, is, -⟩ := @select_sublist α occludes bound [c] rest
  rw [first, is]
  exact List.mem_append_left _ (List.mem_singleton_self c)

end Select

/-! ## Sorted lists without repetitions -/

section Unique

variable {α : Type} [LinearOrder α]

/-- `std::unique`: one of each run of equal neighbours. -/
def unique : List α → List α
  | [] => []
  | [x] => [x]
  | x :: y :: rest => if x = y then unique (y :: rest) else x :: unique (y :: rest)

theorem mem_unique {xs : List α} {a : α} : a ∈ unique xs ↔ a ∈ xs := by
  induction xs using unique.induct with
  | case1 => simp [unique]
  | case2 x => simp [unique]
  | case3 x rest ih => simp [unique, ih]
  | case4 x y rest differ ih => simp [unique, differ, ih]

/-- On a sorted list what is left rises strictly. -/
theorem unique_sorted {xs : List α} (sorted : xs.Pairwise (· ≤ ·)) : (unique xs).Pairwise (· < ·) := by
  induction xs using unique.induct with
  | case1 => exact List.Pairwise.nil
  | case2 x => exact List.pairwise_singleton _ x
  | case3 x rest ih =>
      rw [unique, if_pos rfl]
      exact ih (List.pairwise_cons.mp sorted).2
  | case4 x y rest differ ih =>
      rw [unique, if_neg differ]
      obtain ⟨least, above⟩ := List.pairwise_cons.mp sorted
      refine List.pairwise_cons.mpr ⟨?_, ih above⟩
      intro a mem
      have low : x < y := lt_of_le_of_ne (least y (List.mem_cons_self ..)) differ
      rcases List.mem_cons.mp (mem_unique.mp mem) with rfl | later
      · exact low
      · exact low.trans_le ((List.pairwise_cons.mp above).1 a later)

/-- Two strictly rising lists of the same elements are the same. -/
theorem eq_of_sorted {xs ys : List α} (sorted : xs.Pairwise (· < ·)) (sorted' : ys.Pairwise (· < ·))
    (same : ∀ a, a ∈ xs ↔ a ∈ ys) : xs = ys := by
  have perm : xs.Perm ys :=
    (List.perm_ext_iff_of_nodup (sorted.imp fun less => ne_of_lt less)
      (sorted'.imp fun less => ne_of_lt less)).mpr same
  exact perm.eq_of_pairwise (fun a b _ _ less greater => absurd less (not_lt_of_gt greater)) sorted
    sorted'

end Unique

/-! ## Prefixes -/

/-- On a strictly sorted list the first `m` elements are those with fewer than `m` before them. -/
theorem mem_take_iff {α : Type} {before : α → α → Prop} [DecidableRel before]
    (irrefl : ∀ a, ¬ before a a) (asymm : ∀ a b, before a b → ¬ before b a) {xs : List α}
    (sorted : xs.Pairwise before) {c : α} (mem : c ∈ xs) (m : Nat) :
    c ∈ xs.take m ↔ (xs.countP fun b => decide (before b c)) < m := by
  induction xs generalizing m with
  | nil => cases mem
  | cons x xs ih =>
      obtain ⟨first, rest⟩ := List.pairwise_cons.mp sorted
      cases m with
      | zero => simp
      | succ m =>
          rw [List.take_succ_cons, List.mem_cons, List.countP_cons]
          rcases List.mem_cons.mp mem with rfl | later
          · have none : (xs.countP fun b => decide (before b c)) = 0 := by
              rw [List.countP_eq_zero]
              intro b mem less
              exact asymm c b (first b mem) (of_decide_eq_true less)
            simp [none, irrefl]
          · have below := first c later
            have differ : c ≠ x := fun same => irrefl x (same ▸ below)
            simp only [differ, false_or, below, decide_true, if_true, ih rest later m]
            omega

end HybridSearch.Theory.Greedy
