/-
# Theory.BinarySearch -- binary search over an ascending range

`find` halves a range of positions by a three-way probe until the probe says
equal.  `lowerBound` halves it by a predicate that turns from true to false once.
The upper end of a range is excluded, and the fuel is the length of the range.
-/
import Mathlib.Tactic.ByContra
import Mathlib.Tactic.SplitIfs

namespace HybridSearch.Theory.BinarySearch

set_option autoImplicit false

/-! ## Search for an equal position -/

def find (probe : Nat → Ordering) : Nat → Nat → Nat → Option Nat
  | 0, _, _ => none
  | fuel + 1, lo, hi =>
      if lo < hi then
        match probe ((lo + hi - 1) / 2) with
        | .eq => some ((lo + hi - 1) / 2)
        | .lt => find probe fuel ((lo + hi - 1) / 2 + 1) hi
        | .gt => find probe fuel lo ((lo + hi - 1) / 2)
      else none

/-- The probed positions ascend: below a position that is not above the target all are below it. -/
def Ascending (probe : Nat → Ordering) (lo hi : Nat) : Prop :=
  ∀ i j, lo ≤ i → i < j → j < hi → probe j ≠ .gt → probe i = .lt

theorem find_sound {probe : Nat → Ordering} {fuel lo hi m : Nat}
    (found : find probe fuel lo hi = some m) : lo ≤ m ∧ m < hi ∧ probe m = .eq := by
  induction fuel generalizing lo hi with
  | zero => cases found
  | succ fuel ih =>
      rw [find] at found
      split_ifs at found with nonempty
      cases at_mid : probe ((lo + hi - 1) / 2) with
      | eq =>
          rw [at_mid] at found
          cases found
          exact ⟨by omega, by omega, at_mid⟩
      | lt =>
          rw [at_mid] at found
          obtain ⟨low, high, equal⟩ := ih found
          exact ⟨by omega, high, equal⟩
      | gt =>
          rw [at_mid] at found
          obtain ⟨low, high, equal⟩ := ih found
          exact ⟨low, by omega, equal⟩

/-- **A search finds the equal position of an ascending range.** -/
theorem find_complete {probe : Nat → Ordering} {fuel lo hi m : Nat}
    (ascending : Ascending probe lo hi) (enough : hi - lo ≤ fuel) (low : lo ≤ m) (high : m < hi)
    (equal : probe m = .eq) : find probe fuel lo hi = some m := by
  induction fuel generalizing lo hi with
  | zero => omega
  | succ fuel ih =>
      have below (at_mid : probe ((lo + hi - 1) / 2) = .gt) : m < (lo + hi - 1) / 2 := by
        by_contra at_least
        rcases Nat.lt_or_eq_of_le (Nat.not_lt.mp at_least) with after | same
        · have := ascending _ m (by omega) after high (by rw [equal]; decide)
          rw [at_mid] at this
          cases this
        · rw [same, equal] at at_mid
          cases at_mid
      have above (at_mid : probe ((lo + hi - 1) / 2) = .lt) : (lo + hi - 1) / 2 < m := by
        by_contra at_most
        rcases Nat.lt_or_eq_of_le (Nat.not_lt.mp at_most) with before | same
        · have := ascending m _ low before (by omega) (by rw [at_mid]; decide)
          rw [equal] at this
          cases this
        · rw [← same, equal] at at_mid
          cases at_mid
      rw [find, if_pos (by omega)]
      cases at_mid : probe ((lo + hi - 1) / 2) with
      | eq =>
          have same : (lo + hi - 1) / 2 = m := by
            rcases Nat.lt_trichotomy ((lo + hi - 1) / 2) m with before | same | after
            · have := ascending _ m (by omega) before high (by rw [equal]; decide)
              rw [at_mid] at this
              cases this
            · exact same
            · have := ascending m _ low after (by omega) (by rw [at_mid]; decide)
              rw [equal] at this
              cases this
          exact congrArg some same
      | lt =>
          have := above at_mid
          exact ih (fun i j li => ascending i j (by omega)) (by omega) (by omega) high
      | gt =>
          have := below at_mid
          exact ih (fun i j li ij jh => ascending i j li ij (by omega)) (by omega) low (by omega)

theorem find_eq_none {probe : Nat → Ordering} {fuel lo hi : Nat}
    (absent : ∀ m, lo ≤ m → m < hi → probe m ≠ .eq) : find probe fuel lo hi = none := by
  cases found : find probe fuel lo hi with
  | none => rfl
  | some m =>
      obtain ⟨low, high, equal⟩ := find_sound found
      exact absurd equal (absent m low high)

/-! ## Lower bound -/

def lowerBound (below : Nat → Bool) : Nat → Nat → Nat → Nat
  | 0, lo, _ => lo
  | fuel + 1, lo, hi =>
      if lo < hi then
        if below ((lo + hi) / 2) then lowerBound below fuel ((lo + hi) / 2 + 1) hi
        else lowerBound below fuel lo ((lo + hi) / 2)
      else lo

/-- **The lower bound is where the predicate turns false.** -/
theorem lowerBound_spec {below : Nat → Bool} {fuel lo hi : Nat} (le : lo ≤ hi) (enough : hi - lo ≤ fuel)
    (turns : ∀ i j, lo ≤ i → i < j → j < hi → below j = true → below i = true) :
    lo ≤ lowerBound below fuel lo hi ∧ lowerBound below fuel lo hi ≤ hi ∧
      (∀ i, lo ≤ i → i < lowerBound below fuel lo hi → below i = true) ∧
      ∀ i, lowerBound below fuel lo hi ≤ i → i < hi → below i = false := by
  induction fuel generalizing lo hi with
  | zero =>
      refine ⟨Nat.le_refl _, le, fun i low high => ?_, fun i low high => ?_⟩
      · rw [lowerBound] at high
        omega
      · rw [lowerBound] at low
        omega
  | succ fuel ih =>
      rw [lowerBound]
      split_ifs with nonempty at_mid
      · obtain ⟨low, high, before, after⟩ := @ih ((lo + hi) / 2 + 1) hi (by omega) (by omega)
          (fun i j li => turns i j (by omega))
        refine ⟨by omega, high, ?_, after⟩
        intro i i_low i_high
        rcases Nat.lt_trichotomy i ((lo + hi) / 2) with left | same | right
        · exact turns i _ i_low left (by omega) at_mid
        · rw [same]
          exact at_mid
        · exact before i right i_high
      · obtain ⟨low, high, before, after⟩ := @ih lo ((lo + hi) / 2) (by omega) (by omega)
          (fun i j li ij jh => turns i j li ij (by omega))
        refine ⟨low, by omega, before, ?_⟩
        intro i i_low i_high
        rcases Nat.lt_trichotomy i ((lo + hi) / 2) with left | same | right
        · exact after i i_low left
        · rw [same]
          exact Bool.eq_false_iff.mpr at_mid
        · rw [Bool.eq_false_iff]
          intro above
          exact at_mid (turns _ i (by omega) right i_high above)
      · exact ⟨Nat.le_refl _, le, fun i low high => by omega, fun i low high => by omega⟩

/-! ## The first position that is not below -/

/-- `m` is the first position of the range that is not below, or its end. -/
structure Turn (below : Nat → Prop) (lo hi m : Nat) : Prop where
  low : lo ≤ m
  high : m ≤ hi
  before : ∀ i, lo ≤ i → i < m → below i
  stop : m < hi → ¬below m

namespace Turn

variable {below : Nat → Prop} {lo mid hi m : Nat}

theorem unique {m' : Nat} (turn : Turn below lo hi m) (turn' : Turn below lo hi m') : m = m' := by
  rcases Nat.lt_trichotomy m m' with less | same | more
  · exact absurd (turn'.before m turn.low less) (turn.stop (Nat.lt_of_lt_of_le less turn'.high))
  · exact same
  · exact absurd (turn.before m' turn'.low more) (turn'.stop (Nat.lt_of_lt_of_le more turn.high))

/-- Positions that are below may go before. -/
theorem prepend (turn : Turn below mid hi m) (le : lo ≤ mid) (all : ∀ i, lo ≤ i → i < mid → below i) :
    Turn below lo hi m where
  low := Nat.le_trans le turn.low
  high := turn.high
  before i i_low i_high := by
    rcases Nat.lt_or_ge i mid with front | back
    · exact all i i_low front
    · exact turn.before i back i_high
  stop := turn.stop

/-- A range that turns inside may go on. -/
theorem widen {hi' : Nat} (turn : Turn below lo hi m) (inside : m < hi) (le : hi ≤ hi') :
    Turn below lo hi' m where
  low := turn.low
  high := Nat.le_trans turn.high le
  before := turn.before
  stop _ := turn.stop inside

end Turn

theorem lowerBound_turn {below : Nat → Bool} {fuel lo hi : Nat} (le : lo ≤ hi) (enough : hi - lo ≤ fuel)
    (turns : ∀ i j, lo ≤ i → i < j → j < hi → below j = true → below i = true) :
    Turn (fun i => below i = true) lo hi (lowerBound below fuel lo hi) := by
  obtain ⟨low, high, before, after⟩ := lowerBound_spec le enough turns
  exact ⟨low, high, before, fun inside => Bool.eq_false_iff.mp (after _ (Nat.le_refl _) inside)⟩

end HybridSearch.Theory.BinarySearch
