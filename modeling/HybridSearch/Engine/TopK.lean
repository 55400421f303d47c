/-
# Engine.TopK -- bounded top-k with a deterministic total order (topk.hpp)

Higher score first, and on a tie the lower document.  The heap functions of the
standard library promise which element is at the front of the heap and nothing
else about its order, so the heap is kept in ranking order, its worst element
last.

* `pushAll_best`: what a list of pushes leaves is the best `k` of the list.
-/
import HybridSearch.Theory.BestK
import Mathlib.Data.List.Induction
import Mathlib.Data.List.Sort
import Mathlib.Data.Rat.Defs
import Mathlib.Algebra.Order.Ring.Unbundled.Rat

namespace HybridSearch.Engine

open HybridSearch.Theory

set_option autoImplicit false

/-- `ScoredDoc`, for any type of scores. -/
structure Scored (σ : Type) where
  doc : Nat
  score : σ
  deriving DecidableEq, Repr

namespace Scored

variable {σ : Type} [LinearOrder σ]

/-- `ranks_before`. -/
def ranksBefore (a b : Scored σ) : Prop :=
  if a.score ≠ b.score then b.score < a.score else a.doc < b.doc

instance : DecidableRel (ranksBefore (σ := σ)) := fun a b => by
  unfold ranksBefore
  infer_instance

/-- `b` does not rank before `a`. -/
def ranksLe (a b : Scored σ) : Bool := decide ¬ranksBefore b a

end Scored

/-! ## The order -/

namespace Scored

variable {σ : Type} [LinearOrder σ] {a b c : Scored σ}

theorem ranksBefore_iff : ranksBefore a b ↔ b.score < a.score ∨ a.score = b.score ∧ a.doc < b.doc := by
  rw [ranksBefore]
  split_ifs with differ
  · exact ⟨.inl, fun either => either.resolve_right fun both => differ both.1⟩
  · have same : a.score = b.score := not_not.mp differ
    exact ⟨fun less => .inr ⟨same, less⟩,
      fun either => (either.resolve_left fun lt => absurd same lt.ne').2⟩

theorem not_ranksBefore_iff :
    ¬ranksBefore b a ↔ b.score < a.score ∨ a.score = b.score ∧ a.doc ≤ b.doc := by
  rw [ranksBefore_iff, not_or, not_lt, not_and, not_lt]
  constructor
  · rintro ⟨le, tie⟩
    rcases le.eq_or_lt with same | less
    · exact .inr ⟨same.symm, tie same⟩
    · exact .inl less
  · rintro (less | ⟨same, le⟩)
    · exact ⟨less.le, fun same => absurd same less.ne⟩
    · exact ⟨same.ge, fun _ => le⟩

theorem ranksLe_linear : BestK.Linear (ranksLe (σ := σ)) where
  trans a b c first second := by
    rw [ranksLe, decide_eq_true_eq, not_ranksBefore_iff] at *
    rcases first with less | ⟨same, le⟩
    · rcases second with less' | ⟨same', _⟩
      · exact .inl (less'.trans less)
      · exact .inl (same' ▸ less)
    · rcases second with less' | ⟨same', le'⟩
      · exact .inl (same ▸ less')
      · exact .inr ⟨same.trans same', le.trans le'⟩
  total a b := by
    rw [ranksLe, ranksLe, Bool.or_eq_true, decide_eq_true_eq, decide_eq_true_eq, not_ranksBefore_iff,
      not_ranksBefore_iff]
    rcases lt_trichotomy a.score b.score with less | same | more
    · exact .inr (.inl less)
    · rcases Nat.le_total a.doc b.doc with le | ge
      · exact .inl (.inr ⟨same, le⟩)
      · exact .inr (.inr ⟨same.symm, ge⟩)
    · exact .inl (.inl more)
  antisymm a b first second := by
    rw [ranksLe, decide_eq_true_eq, not_ranksBefore_iff] at *
    rcases first with less | ⟨same, le⟩
    · rcases second with less' | ⟨same', _⟩
      · exact absurd less' less.not_gt
      · exact absurd same' less.ne
    · rcases second with less' | ⟨_, le'⟩
      · exact absurd same less'.ne
      · cases a
        cases b
        exact congrArg₂ Scored.mk (Nat.le_antisymm le le') same

theorem ranksLe_iff : ranksLe a b = true ↔ ¬ranksBefore b a := decide_eq_true_iff

end Scored

/-! ## The bounded list -/

/-- `ScoredDoc`, with an exact score. -/
abbrev ScoredDoc := Scored ℚ

structure TopK where
  k : Nat
  heap : List ScoredDoc
  deriving DecidableEq, Repr

namespace TopK

def empty (k : Nat) : TopK := ⟨k, []⟩

def full (t : TopK) : Bool := decide (t.k ≤ t.heap.length)

/-- The front of the heap: the worst of the current top-k. -/
def front (t : TopK) : Option ScoredDoc := t.heap.getLast?

/-- The score a candidate must beat; `none` is minus infinity. -/
def threshold (t : TopK) : Option ℚ := if t.full then t.front.map Scored.score else none

/-- `push`, and whether the candidate was admitted. -/
def push (t : TopK) (doc : Nat) (score : ℚ) : Bool × TopK :=
  if t.k = 0 then (false, t)
  else
    let c : ScoredDoc := ⟨doc, score⟩
    if ¬ t.full then (true, { t with heap := t.heap.orderedInsert Scored.ranksBefore c })
    else
      match t.front with
      | none => (false, t)
      | some worst =>
          if ¬ Scored.ranksBefore c worst then (false, t)
          else (true, { t with heap := t.heap.dropLast.orderedInsert Scored.ranksBefore c })

def takeSorted (t : TopK) : List ScoredDoc := t.heap

end TopK

/-! ## The best `k` -/

/-- `a` ranks no later than `b`. -/
def ranksLe (a b : ScoredDoc) : Bool := decide (a = b ∨ Scored.ranksBefore a b)

theorem ranksLe_eq (a b : ScoredDoc) : ranksLe a b = Scored.ranksLe a b := by
  rw [ranksLe, Scored.ranksLe, decide_eq_decide, Scored.not_ranksBefore_iff, Scored.ranksBefore_iff]
  constructor
  · rintro (rfl | less | ⟨same, less⟩)
    · exact .inr ⟨rfl, le_rfl⟩
    · exact .inl less
    · exact .inr ⟨same, less.le⟩
  · rintro (less | ⟨same, le⟩)
    · exact .inr (.inl less)
    · rcases le.eq_or_lt with equal | less
      · cases a
        cases b
        exact .inl (congrArg₂ Scored.mk equal same)
      · exact .inr (.inr ⟨same, less⟩)

theorem ranksLe_linear : BestK.Linear ranksLe := by
  have same : ranksLe = Scored.ranksLe := funext fun a => funext (ranksLe_eq a)
  exact same ▸ Scored.ranksLe_linear

theorem not_ranksBefore {a b : ScoredDoc} : ¬ Scored.ranksBefore a b ↔ ranksLe b a = true := by
  rw [ranksLe_eq, Scored.ranksLe_iff]

namespace TopK

/-- Insertion in ranking order sorts. -/
theorem orderedInsert_sorted {c : ScoredDoc} {l : List ScoredDoc}
    (sorted : l.Pairwise fun a b => ranksLe a b = true) :
    (l.orderedInsert Scored.ranksBefore c).Pairwise fun a b => ranksLe a b = true := by
  induction l with
  | nil => exact List.pairwise_singleton _ _
  | cons b rest ih =>
      have tail := List.pairwise_cons.mp sorted
      rw [List.orderedInsert]
      split_ifs with before
      · refine List.pairwise_cons.mpr ⟨?_, sorted⟩
        intro x mem
        have first : ranksLe c b = true := decide_eq_true (.inr before)
        rcases List.mem_cons.mp mem with rfl | later
        · exact first
        · exact ranksLe_linear.trans _ _ _ first (tail.1 x later)
      · refine List.pairwise_cons.mpr ⟨?_, ih tail.2⟩
        intro x mem
        rcases List.mem_cons.mp ((List.perm_orderedInsert Scored.ranksBefore c rest).mem_iff.mp mem) with rfl | later
        · exact not_ranksBefore.mp before
        · exact tail.1 x later

theorem mergeSort_snoc (l : List ScoredDoc) (c : ScoredDoc) :
    (l ++ [c]).mergeSort ranksLe = (l.mergeSort ranksLe).orderedInsert Scored.ranksBefore c := by
  refine BestK.sort_unique ranksLe_linear
    (orderedInsert_sorted (BestK.sorted ranksLe_linear l)) ?_
  calc (l ++ [c]).Perm (c :: l) := List.perm_append_singleton c l
    _ |>.Perm (c :: l.mergeSort ranksLe) := (List.mergeSort_perm l ranksLe).symm.cons c
    _ |>.Perm _ := (List.perm_orderedInsert Scored.ranksBefore c _).symm

theorem orderedInsert_append_before {c worst : ScoredDoc} {front back : List ScoredDoc}
    (before : Scored.ranksBefore c worst) :
    (front ++ worst :: back).orderedInsert Scored.ranksBefore c =
      front.orderedInsert Scored.ranksBefore c ++ worst :: back := by
  induction front with
  | nil => exact if_pos before
  | cons b rest ih =>
      rw [List.cons_append, List.orderedInsert, List.orderedInsert]
      split_ifs with here
      · rfl
      · rw [ih]
        rfl

theorem orderedInsert_append_after {c : ScoredDoc} {front back : List ScoredDoc}
    (after : ∀ b ∈ front, ¬ Scored.ranksBefore c b) :
    (front ++ back).orderedInsert Scored.ranksBefore c = front ++ back.orderedInsert Scored.ranksBefore c := by
  induction front with
  | nil => rfl
  | cons b rest ih =>
      rw [List.cons_append, List.orderedInsert, if_neg (after b (List.mem_cons_self ..)),
        ih fun x mem => after x (List.mem_cons_of_mem _ mem)]
      rfl

/-- **A heap of the best stays one under `push`.** -/
theorem push_best {t : TopK} {l : List ScoredDoc} (is_best : t.heap = BestK.best ranksLe t.k l)
    (doc : Nat) (score : ℚ) :
    (t.push doc score).2 = ⟨t.k, BestK.best ranksLe t.k (l ++ [⟨doc, score⟩])⟩ := by
  have sorted := BestK.sorted ranksLe_linear l
  rw [BestK.best] at is_best
  rw [push, BestK.best, mergeSort_snoc]
  generalize l.mergeSort ranksLe = all at *
  by_cases none_kept : t.k = 0
  · rw [if_pos none_kept, none_kept, List.take_zero]
    rw [none_kept, List.take_zero] at is_best
    exact congrArg₂ TopK.mk none_kept is_best
  rw [if_neg none_kept]
  dsimp only
  by_cases full : t.full
  · rw [if_neg (not_not.mpr full)]
    have long : t.k ≤ all.length := by
      have := of_decide_eq_true full
      rw [is_best, List.length_take] at this
      omega
    -- the heap is the first `k` of all, and its last is the worst
    obtain ⟨m, k_is⟩ := Nat.exists_eq_succ_of_ne_zero none_kept
    rw [k_is] at is_best long
    have split : all = all.take m ++ all[m] :: all.drop (m + 1) := by
      rw [← List.drop_eq_getElem_cons, List.take_append_drop]
    have heap_is : t.heap = all.take m ++ [all[m]] := by rw [is_best, List.take_succ_eq_append_getElem long]
    have front_length : (all.take m).length = m := List.length_take_of_le (by omega)
    have front_is : t.front = some all[m] := by rw [front, heap_is, List.getLast?_concat]
    have rest_is : t.heap.dropLast = all.take m := by rw [heap_is, List.dropLast_concat]
    rw [front_is, k_is]
    dsimp only
    generalize all[m] = worst at *
    generalize all.take m = front at *
    generalize all.drop (m + 1) = back at *
    subst split
    by_cases before : Scored.ranksBefore ⟨doc, score⟩ worst
    · rw [if_neg (not_not.mpr before), rest_is, orderedInsert_append_before before,
        List.take_append_of_le_length, List.take_of_length_le]
      · rw [List.orderedInsert_length, front_length]
      · rw [List.orderedInsert_length, front_length]
    · rw [if_pos before]
      have after : ∀ b ∈ front ++ [worst], ¬ Scored.ranksBefore ⟨doc, score⟩ b := by
        intro b mem
        have behind : ranksLe worst ⟨doc, score⟩ = true := not_ranksBefore.mp before
        rw [not_ranksBefore]
        rcases List.mem_append.mp mem with old | last
        · have le := (List.pairwise_append.mp sorted).2.2 b old worst (List.mem_cons_self ..)
          exact ranksLe_linear.trans _ _ _ le behind
        · rw [List.mem_singleton.mp last]
          exact behind
      have regroup : front ++ worst :: back = (front ++ [worst]) ++ back := by
        rw [List.append_assoc]
        rfl
      rw [regroup, orderedInsert_append_after after, List.take_left' (by simp [front_length]), ← heap_is,
        ← k_is]
  · rw [if_pos full]
    have short : all.length < t.k := by
      have := of_decide_eq_false (Bool.eq_false_iff.mpr full)
      rw [is_best, List.length_take] at this
      omega
    rw [is_best, List.take_of_length_le short.le, List.take_of_length_le]
    rw [List.orderedInsert_length]
    exact short

/-- **Pushing a list keeps the best of it.** -/
theorem pushAll_best (k : Nat) (l : List ScoredDoc) :
    (l.foldl (fun t c => (t.push c.doc c.score).2) (empty k)).takeSorted = BestK.best ranksLe k l := by
  have pushed : ∀ l' : List ScoredDoc,
      l'.foldl (fun t c => (t.push c.doc c.score).2) (empty k) = ⟨k, BestK.best ranksLe k l'⟩ := by
    intro l'
    induction l' using List.reverseRecOn with
    | nil => simp [empty, BestK.best]
    | append_singleton front c ih =>
        rw [List.foldl_append, ih]
        exact push_best rfl c.doc c.score
  rw [pushed, takeSorted]

end TopK
end HybridSearch.Engine
