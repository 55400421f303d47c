/-
# Theory.LexOrder -- sorted strings and their common prefixes

In lexicographic order a prefix comes first, cutting strings off keeps their
order, and what the ends of a sorted range share its members share
(`take_eq_of_between`).  Among strings with one prefix, the next letter ascends
(`letter_le`).
-/
import Mathlib

namespace HybridSearch.Theory.LexOrder

set_option autoImplicit false

variable {α : Type} [LinearOrder α]

theorem nil_le (x : List α) : [] ≤ x := le_of_not_gt (List.not_lt_nil x)

theorem cons_le_cons {a b : α} {x y : List α} : a :: x ≤ b :: y ↔ a < b ∨ a = b ∧ x ≤ y := by
  rw [le_iff_lt_or_eq, le_iff_lt_or_eq, List.cons_lt_cons_iff, List.cons.injEq]
  tauto

theorem prefix_le {p x : List α} (pre : p <+: x) : p ≤ x := by
  obtain ⟨rest, rfl⟩ := pre
  induction p with
  | nil => exact nil_le _
  | cons a p ih => exact cons_le_cons.mpr (.inr ⟨rfl, ih⟩)

theorem take_le_take {x y : List α} (le : x ≤ y) (m : Nat) : x.take m ≤ y.take m := by
  induction m generalizing x y with
  | zero => exact le_rfl
  | succ m ih =>
      cases x with
      | nil => exact nil_le _
      | cons a x =>
          cases y with
          | nil => exact absurd (le.antisymm (nil_le _)) (List.cons_ne_nil a x)
          | cons b y =>
              rw [List.take_succ_cons, List.take_succ_cons]
              rcases cons_le_cons.mp le with lt | ⟨same, tail_le⟩
              · exact cons_le_cons.mpr (.inl lt)
              · exact cons_le_cons.mpr (.inr ⟨same, ih tail_le⟩)

/-- **What the ends of a sorted range share, its members share.** -/
theorem take_eq_of_between {x y z : List α} {m : Nat} (low : x ≤ y) (high : y ≤ z)
    (same : x.take m = z.take m) : y.take m = x.take m :=
  le_antisymm (same ▸ take_le_take high m) (take_le_take low m)

/-- After a common prefix the next letter ascends. -/
theorem letter_le {x y : List α} (le : x ≤ y) {p : List α} (px : p <+: x) (py : p <+: y)
    (fallback : α) (x_more : p.length < x.length) (y_more : p.length < y.length) :
    x.getD p.length fallback ≤ y.getD p.length fallback := by
  obtain ⟨x', rfl⟩ := px
  obtain ⟨y', rfl⟩ := py
  rw [List.getD_append_right _ _ _ _ le_rfl, List.getD_append_right _ _ _ _ le_rfl, Nat.sub_self]
  induction p with
  | nil =>
      cases x' with
      | nil => simp at x_more
      | cons a x' =>
          cases y' with
          | nil => simp at y_more
          | cons b y' =>
              rcases cons_le_cons.mp le with lt | ⟨same, _⟩
              · exact lt.le
              · exact same.le
  | cons a p ih =>
      rcases cons_le_cons.mp le with lt | ⟨_, tail_le⟩
      · exact absurd lt (lt_irrefl a)
      · rw [List.length_append, List.length_cons] at x_more y_more
        exact ih (by rw [List.length_append]; omega) (by rw [List.length_append]; omega) tail_le

/-! ## Three-way comparison -/

def sequenceCompare : List α → List α → Ordering
  | [], [] => .eq
  | [], _ :: _ => .lt
  | _ :: _, [] => .gt
  | a :: x, b :: y =>
      if a < b then .lt else if b < a then .gt else sequenceCompare x y

theorem sequenceCompare_spec (x y : List α) :
    (sequenceCompare x y = .lt ↔ x < y) ∧ (sequenceCompare x y = .eq ↔ x = y) := by
  induction x generalizing y with
  | nil =>
      cases y with
      | nil => simp [sequenceCompare]
      | cons b y => simp [sequenceCompare]
  | cons a x ih =>
      cases y with
      | nil => simp [sequenceCompare]
      | cons b y =>
          rw [sequenceCompare, List.cons_lt_cons_iff, List.cons.injEq]
          split_ifs with lt gt
          · simp [lt, lt.ne]
          · simp [gt.asymm, gt.ne']
          · have same : a = b := le_antisymm (not_lt.mp gt) (not_lt.mp lt)
            simp [same, ih y]

theorem sequenceCompare_eq_lt {x y : List α} : sequenceCompare x y = .lt ↔ x < y :=
  (sequenceCompare_spec x y).1

theorem sequenceCompare_eq_eq {x y : List α} : sequenceCompare x y = .eq ↔ x = y :=
  (sequenceCompare_spec x y).2

theorem sequenceCompare_ne_gt {x y : List α} : sequenceCompare x y ≠ .gt ↔ x ≤ y := by
  rw [le_iff_lt_or_eq, ← sequenceCompare_eq_lt, ← sequenceCompare_eq_eq]
  cases sequenceCompare x y <;> simp

end HybridSearch.Theory.LexOrder
