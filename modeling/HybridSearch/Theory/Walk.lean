/-
# Theory.Walk -- a walk on a row of cells

A `Move` spreads every cell to itself and its two neighbours, and drops what falls off the
ends.  `expect` is the expectation of a payoff over the walk, without any cells.  When the
row is wide enough that nothing can fall off, the cells hold the distribution of the walk:
weighing them gives the expectation (`weigh_foldl`).
-/
import Mathlib.Algebra.BigOperators.Group.Finset.Basic
import Mathlib.Algebra.BigOperators.Ring.Finset
import Mathlib.Algebra.Order.Ring.Defs
import Mathlib.Data.List.GetD
import Mathlib.Tactic.Linarith
import Mathlib.Tactic.Ring

namespace HybridSearch.Theory.Walk

set_option autoImplicit false

open Finset

variable {K : Type} [CommRing K]

/-- The weights of a step up, of a step down and of none. -/
structure Move (K : Type) where
  up : K
  down : K
  stay : K

def spread (m : Move K) (cells : List K) : List K :=
  (List.range cells.length).map fun i =>
    cells.getD i 0 * m.stay + (if 1 ≤ i then cells.getD (i - 1) 0 * m.up else 0) +
      cells.getD (i + 1) 0 * m.down

/-- The payoff `f` of the cells, counted from the cell `k`. -/
def weigh (k : Nat) (f : Int → K) (cells : List K) : K :=
  ∑ i ∈ range cells.length, f (i - k) * cells.getD i 0

/-- The expected payoff of a walk from `0`. -/
def expect (f : Int → K) : List (Move K) → K
  | [] => f 0
  | m :: rest =>
      m.stay * expect f rest + m.up * expect (fun x => f (x + 1)) rest +
        m.down * expect (fun x => f (x - 1)) rest

/-! ## Cells -/

theorem length_spread (m : Move K) (cells : List K) : (spread m cells).length = cells.length := by
  rw [spread, List.length_map, List.length_range]

theorem getD_spread (m : Move K) {cells : List K} {i : Nat} (inside : i < cells.length) :
    (spread m cells).getD i 0 =
      cells.getD i 0 * m.stay + (if 1 ≤ i then cells.getD (i - 1) 0 * m.up else 0) +
        cells.getD (i + 1) 0 * m.down := by
  rw [List.getD_eq_getElem _ _ (by rwa [length_spread]), List.getElem_of_eq (spread.eq_1 m cells) _,
    List.getElem_map, List.getElem_range]

/-- **One step, weighed**: nothing falls off if the ends are empty. -/
theorem weigh_spread (m : Move K) {cells : List K} (first : cells.getD 0 0 = 0)
    (last : cells.getD (cells.length - 1) 0 = 0) (k : Nat) (f : Int → K) :
    weigh k f (spread m cells) =
      m.stay * weigh k f cells + m.up * weigh k (fun x => f (x + 1)) cells +
        m.down * weigh k (fun x => f (x - 1)) cells := by
  rcases Nat.eq_zero_or_pos cells.length with empty | positive
  · rw [weigh, weigh, weigh, weigh, length_spread, empty]
    simp only [range_zero, sum_empty, mul_zero, add_zero]
  obtain ⟨n, size⟩ : ∃ n, cells.length = n + 1 := ⟨cells.length - 1, by omega⟩
  rw [size, Nat.add_sub_cancel] at last
  have past : cells.getD (n + 1) 0 = 0 := List.getD_eq_default _ _ size.le
  have stay : ∑ i ∈ range (n + 1), f (i - k) * (cells.getD i 0 * m.stay) =
      m.stay * ∑ i ∈ range (n + 1), f (i - k) * cells.getD i 0 := by
    rw [mul_sum]
    exact sum_congr rfl fun i _ => by ring
  have up : ∑ i ∈ range (n + 1), f (i - k) * (if 1 ≤ i then cells.getD (i - 1) 0 * m.up else 0) =
      m.up * ∑ i ∈ range (n + 1), f (i - k + 1) * cells.getD i 0 := by
    rw [sum_range_succ', if_neg (by omega), mul_zero, add_zero, sum_range_succ, last, mul_zero, add_zero,
      mul_sum]
    refine sum_congr rfl fun i _ => ?_
    have next : ((i + 1 : Nat) : Int) - k = i - k + 1 := by
      push_cast
      ring
    rw [if_pos (by omega), Nat.add_sub_cancel, next]
    ring
  have down : ∑ i ∈ range (n + 1), f (i - k) * (cells.getD (i + 1) 0 * m.down) =
      m.down * ∑ i ∈ range (n + 1), f (i - k - 1) * cells.getD i 0 := by
    rw [sum_range_succ, past, zero_mul, mul_zero, add_zero, sum_range_succ', first, mul_zero, add_zero,
      mul_sum]
    refine sum_congr rfl fun i _ => ?_
    have previous : ((i + 1 : Nat) : Int) - k - 1 = i - k := by
      push_cast
      ring
    rw [previous]
    ring
  rw [weigh, weigh, weigh, weigh, length_spread, size, ← stay, ← up, ← down, ← sum_add_distrib,
    ← sum_add_distrib]
  refine sum_congr rfl fun i inside => ?_
  rw [getD_spread m (size ▸ mem_range.mp inside)]
  ring

/-- The cells that are not empty leave `n` cells free at both ends. -/
def Room (n : Nat) (cells : List K) : Prop :=
  ∀ i, cells.getD i 0 ≠ 0 → n ≤ i ∧ i + n < cells.length

theorem room_spread (m : Move K) {n : Nat} {cells : List K} (room : Room (n + 1) cells) :
    Room n (spread m cells) := by
  intro i nonzero
  have inside : i < (spread m cells).length := by
    by_contra past
    exact nonzero (List.getD_eq_default _ _ (Nat.not_lt.mp past))
  rw [length_spread] at inside ⊢
  rw [getD_spread m inside] at nonzero
  by_cases own : cells.getD i 0 = 0
  · by_cases next : cells.getD (i + 1) 0 = 0
    · rw [own, next, zero_mul, zero_mul, zero_add, add_zero] at nonzero
      by_cases front : 1 ≤ i
      · rw [if_pos front] at nonzero
        have bounds := room (i - 1) (left_ne_zero_of_mul nonzero)
        omega
      · exact absurd (if_neg front) nonzero
    · have bounds := room (i + 1) next
      omega
  · have bounds := room i own
    omega

/-- **Weighing the cells after the moves gives the expectation of the rest of the walk.** -/
theorem weigh_foldl {moves : List (Move K)} {cells : List K} (room : Room moves.length cells)
    (k : Nat) (f : Int → K) :
    weigh k f (moves.foldl (fun cells m => spread m cells) cells) =
      weigh k (fun x => expect (fun y => f (x + y)) moves) cells := by
  induction moves generalizing cells with
  | nil => simp only [List.foldl_nil, expect, add_zero]
  | cons m rest ih =>
      have first : cells.getD 0 0 = 0 := by
        by_contra nonzero
        have bounds := room 0 nonzero
        rw [List.length_cons] at bounds
        omega
      have last : cells.getD (cells.length - 1) 0 = 0 := by
        by_contra nonzero
        have bounds := room _ nonzero
        rw [List.length_cons] at bounds
        omega
      rw [List.foldl_cons, ih (room_spread m room), weigh_spread m first last, weigh, weigh, weigh, weigh,
        mul_sum, mul_sum, mul_sum, ← sum_add_distrib, ← sum_add_distrib]
      refine sum_congr rfl fun i _ => ?_
      have up (x : Int) : (fun y => f (x + 1 + y)) = fun y => f (x + (y + 1)) :=
        funext fun y => congrArg f (by ring)
      have down (x : Int) : (fun y => f (x - 1 + y)) = fun y => f (x + (y - 1)) :=
        funext fun y => congrArg f (by ring)
      rw [expect, up, down]
      ring

theorem sum_eq (cells : List K) : cells.sum = ∑ i ∈ range cells.length, cells.getD i 0 := by
  induction cells with
  | nil => rfl
  | cons c rest ih =>
      rw [List.sum_cons, ih, List.length_cons, sum_range_succ', add_comm]
      rfl

/-- What lies above the cell `k`, less what lies below it. -/
theorem sum_sides (k : Nat) (cells : List K) :
    (cells.drop (k + 1)).sum - (cells.take k).sum = weigh k (fun x => (x.sign : K)) cells := by
  induction cells generalizing k with
  | nil => simp [weigh]
  | cons c rest ih =>
      rw [weigh, List.length_cons, sum_range_succ']
      cases k with
      | zero =>
          have above : ∑ i ∈ range rest.length,
              (((((i + 1 : Nat) : Int) - (0 : Nat)).sign : Int) : K) * (c :: rest).getD (i + 1) 0 =
              ∑ i ∈ range rest.length, rest.getD i 0 := by
            refine sum_congr rfl fun i _ => ?_
            rw [Nat.cast_zero, sub_zero, Int.sign_natCast_of_ne_zero (Nat.succ_ne_zero i), Int.cast_one, one_mul]
            rfl
          rw [above, List.take_zero, List.sum_nil, sub_zero, List.drop_succ_cons, List.drop_zero, sum_eq]
          simp
      | succ k =>
          have shifted : ∑ i ∈ range rest.length,
              (((((i + 1 : Nat) : Int) - (k + 1 : Nat)).sign : Int) : K) * (c :: rest).getD (i + 1) 0 =
              weigh k (fun x => (x.sign : K)) rest := by
            refine sum_congr rfl fun i _ => ?_
            have same : ((i + 1 : Nat) : Int) - (k + 1 : Nat) = i - k := by
              push_cast
              ring
            rw [same]
            rfl
          have below : (((0 : Nat) : Int) - (k + 1 : Nat)).sign = -1 :=
            Int.sign_eq_neg_one_of_neg (by omega)
          rw [shifted, below, ← ih k, List.drop_succ_cons, List.take_succ_cons, List.sum_cons,
            List.getD_cons_zero]
          push_cast
          ring

/-! ## Expectations -/

theorem expect_neg (f : Int → K) (moves : List (Move K)) :
    expect (fun x => -f x) moves = -expect f moves := by
  induction moves generalizing f with
  | nil => rfl
  | cons m rest ih =>
      rw [expect, expect, ih, ih fun x => f (x + 1), ih fun x => f (x - 1)]
      ring

/-- A walk of probabilities earns no more than its best payoff. -/
theorem expect_le [LinearOrder K] [IsStrictOrderedRing K] {f : Int → K} {b : K} (bound : ∀ x, f x ≤ b)
    {moves : List (Move K)} (weights : ∀ m ∈ moves, 0 ≤ m.up ∧ 0 ≤ m.down ∧ 0 ≤ m.stay ∧
      m.stay + m.up + m.down = 1) : expect f moves ≤ b := by
  induction moves generalizing f with
  | nil => exact bound 0
  | cons m rest ih =>
      obtain ⟨up, down, stay, total⟩ := weights m List.mem_cons_self
      have later := fun n mem => weights n (List.mem_cons_of_mem m mem)
      calc m.stay * expect f rest + m.up * expect (fun x => f (x + 1)) rest +
            m.down * expect (fun x => f (x - 1)) rest
          ≤ m.stay * b + m.up * b + m.down * b :=
            add_le_add (add_le_add (mul_le_mul_of_nonneg_left (ih bound later) stay)
              (mul_le_mul_of_nonneg_left (ih (fun x => bound (x + 1)) later) up))
              (mul_le_mul_of_nonneg_left (ih (fun x => bound (x - 1)) later) down)
        _ = b := by rw [← add_mul, ← add_mul, total, one_mul]

/-- Turning every move around. -/
theorem expect_flip (f : Int → K) (moves : List (Move K)) :
    expect f (moves.map fun m => ⟨m.down, m.up, m.stay⟩) = expect (fun x => f (-x)) moves := by
  induction moves generalizing f with
  | nil => rfl
  | cons m rest ih =>
      have up : (fun x : Int => f (-x - 1)) = fun x => f (-(x + 1)) :=
        funext fun x => congrArg f (by ring)
      have down : (fun x : Int => f (-x + 1)) = fun x => f (-(x - 1)) :=
        funext fun x => congrArg f (by ring)
      rw [List.map_cons, expect, expect, ih, ih fun x => f (x + 1), ih fun x => f (x - 1), up, down]
      ring

end HybridSearch.Theory.Walk
