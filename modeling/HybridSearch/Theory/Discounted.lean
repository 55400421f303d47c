/-
# Theory.Discounted -- sums whose terms count less the later they come

`discounted disc i gains` weighs the gains with the discounts from the place `i` on.  Under a
falling discount a list whose every prefix has the greater sum has the greater discounted sum
(`discounted_le`), and of all choices from a list its greatest elements, greatest first, have the
greatest prefixes (`sum_le_of_subperm`).
-/
import Mathlib.Algebra.Order.BigOperators.Group.List
import Mathlib.Algebra.Order.Field.Basic
import Mathlib.Data.List.Perm.Subperm
import Mathlib.Tactic.Linarith
import Mathlib.Tactic.Ring

namespace HybridSearch.Theory.Discounted

set_option autoImplicit false

variable {K : Type} [Field K] [LinearOrder K] [IsStrictOrderedRing K]

def discounted (disc : Nat → K) : Nat → List K → K
  | _, [] => 0
  | i, g :: rest => g * disc i + discounted disc (i + 1) rest

variable {disc : Nat → K}

omit [LinearOrder K] [IsStrictOrderedRing K] in
theorem discounted_append (i : Nat) (front back : List K) :
    discounted disc i (front ++ back) =
      discounted disc i front + discounted disc (i + front.length) back := by
  induction front generalizing i with
  | nil => rw [List.nil_append, discounted, zero_add, List.length_nil, Nat.add_zero]
  | cons g rest ih =>
      rw [List.cons_append, discounted, discounted, ih, List.length_cons, ← add_assoc,
        Nat.add_right_comm]
      rfl

omit [LinearOrder K] [IsStrictOrderedRing K] in
theorem discounted_zeros (i n : Nat) : discounted disc i (List.replicate n 0) = 0 := by
  induction n generalizing i with
  | zero => rfl
  | succ n ih => rw [List.replicate_succ, discounted, ih, zero_mul, zero_add]

theorem discounted_nonneg (positive : ∀ i, 0 < disc i) {gains : List K} (nonneg : ∀ g ∈ gains, 0 ≤ g)
    (i : Nat) : 0 ≤ discounted disc i gains := by
  induction gains generalizing i with
  | nil => exact le_rfl
  | cons g rest ih =>
      rw [discounted]
      exact add_nonneg (mul_nonneg (nonneg g List.mem_cons_self) (positive i).le)
        (ih (fun g mem => nonneg g (List.mem_cons_of_mem _ mem)) (i + 1))

/-- A list of gains of which the first is positive counts. -/
theorem discounted_pos (positive : ∀ i, 0 < disc i) {g : K} {rest : List K} (gain : 0 < g)
    (nonneg : ∀ g ∈ rest, 0 ≤ g) (i : Nat) : 0 < discounted disc i (g :: rest) := by
  rw [discounted]
  exact add_pos_of_pos_of_nonneg (mul_pos gain (positive i)) (discounted_nonneg positive nonneg (i + 1))

/-- **Greater prefixes, greater sum**, up to what `slack` is worth at the first place. -/
theorem discounted_le_add (positive : ∀ i, 0 < disc i) (falls : ∀ i, disc (i + 1) ≤ disc i)
    {xs ys : List K} (nonneg : ∀ y ∈ ys, 0 ≤ y) {slack : K}
    (prefixes : ∀ j, (xs.take j).sum ≤ slack + (ys.take j).sum) (i : Nat) :
    discounted disc i xs ≤ slack * disc i + discounted disc i ys := by
  have start : 0 ≤ slack := by simpa using prefixes 0
  induction xs generalizing ys slack i with
  | nil =>
      rw [discounted]
      exact add_nonneg (mul_nonneg start (positive i).le) (discounted_nonneg positive nonneg i)
  | cons x xs ih =>
      -- the first gains change the slack
      have rest (ys' : List K) (y : K) (nonneg' : ∀ y ∈ ys', 0 ≤ y)
          (next : ∀ j, x + (xs.take j).sum ≤ slack + (y + (ys'.take j).sum)) :
          x * disc i + discounted disc (i + 1) xs ≤
            slack * disc i + (y * disc i + discounted disc (i + 1) ys') := by
        have left : 0 ≤ slack + y - x := by
          have first := next 0
          rw [List.take_zero, List.take_zero, List.sum_nil, add_zero, add_zero] at first
          linarith
        have shifted (j : Nat) : (xs.take j).sum ≤ (slack + y - x) + (ys'.take j).sum := by linarith [next j]
        have later := ih nonneg' shifted (i + 1) left
        have less : (slack + y - x) * disc (i + 1) ≤ (slack + y - x) * disc i :=
          mul_le_mul_of_nonneg_left (falls i) left
        have spread : (slack + y - x) * disc i = slack * disc i + y * disc i - x * disc i := by ring
        linarith
      cases ys with
      | nil =>
          have step := rest [] 0 nonneg fun j => by
            have p := prefixes (j + 1)
            rw [List.take_succ_cons, List.sum_cons, List.take_nil] at p
            rw [List.take_nil, zero_add]
            exact p
          rw [discounted, zero_mul, zero_add] at step
          exact step
      | cons y ys =>
          exact rest ys y (fun y mem => nonneg y (List.mem_cons_of_mem _ mem)) fun j => by
            have p := prefixes (j + 1)
            rwa [List.take_succ_cons, List.sum_cons, List.take_succ_cons, List.sum_cons] at p

theorem discounted_le (positive : ∀ i, 0 < disc i) (falls : ∀ i, disc (i + 1) ≤ disc i)
    {xs ys : List K} (nonneg : ∀ y ∈ ys, 0 ≤ y)
    (prefixes : ∀ j, (xs.take j).sum ≤ (ys.take j).sum) (i : Nat) :
    discounted disc i xs ≤ discounted disc i ys := by
  have no_slack : ∀ j, (xs.take j).sum ≤ 0 + (ys.take j).sum := fun j => by
    rw [zero_add]
    exact prefixes j
  have bound := discounted_le_add positive falls nonneg no_slack i
  rwa [zero_mul, zero_add] at bound

/-- **A choice of elements** has at most the sum of as many of the greatest. -/
theorem sum_le_of_subperm {s t : List K} (sorted : s.Pairwise fun a b => b ≤ a) (chosen : t.Subperm s) :
    t.sum ≤ (s.take t.length).sum := by
  induction s generalizing t with
  | nil =>
      rw [List.subperm_nil.mp chosen]
      exact le_rfl
  | cons a s ih =>
      obtain ⟨greatest, sorted'⟩ := List.pairwise_cons.mp sorted
      cases t with
      | nil => exact le_rfl
      | cons b t =>
          obtain ⟨c, t', perm, le, rest⟩ : ∃ c t', (b :: t).Perm (c :: t') ∧ c ≤ a ∧ t'.Subperm s := by
            obtain ⟨l, perm, sub⟩ := chosen
            cases sub with
            | cons _ sub =>
                have found := sub.subset (perm.mem_iff.mpr List.mem_cons_self)
                exact ⟨b, t, List.Perm.refl _, greatest b found,
                  (List.sublist_cons_self b t).subperm.trans (perm.symm.subperm.trans sub.subperm)⟩
            | cons_cons _ sub => exact ⟨a, _, perm.symm, le_rfl, sub.subperm⟩
          have length := perm.length_eq
          rw [perm.sum_eq, length, List.length_cons, List.take_succ_cons, List.sum_cons, List.sum_cons]
          exact add_le_add le (ih sorted' rest)

end HybridSearch.Theory.Discounted
