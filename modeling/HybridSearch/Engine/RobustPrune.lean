/-
# Engine.RobustPrune -- cutting a candidate list to an out-list (src/vector/vamana.cc)

`robust_prune` sorts the candidates of a point by distance, keeps the nearest and marks
in place every later candidate that a kept one occludes.  The distance is any function
of two ids and `times` any product with `alpha`, so whatever floats do is covered.

The marks say which candidates the kept ones occlude (`pruneLoop_eq`), so the loop is
the greedy selection of `Theory.Greedy`.
-/
import HybridSearch.Engine.CandidateList
import HybridSearch.Engine.Machine
import HybridSearch.Theory.Greedy
import HybridSearch.Theory.OrderStatistic
import Mathlib.Data.Finset.Dedup

namespace HybridSearch.Engine

open HybridSearch.Theory

set_option autoImplicit false

abbrev kEmptySlot : Nat := uint32Max

namespace RobustPrune

variable (d : Nat → Nat → ℚ) (times : ℚ → ℚ → ℚ) (p : Nat) (alpha : ℚ)

/-- The candidates without repetitions, `p` and empty slots, nearest first, cut to
`maxCandidates` (0 for all). -/
def pool (cands : List Nat) (maxCandidates : Nat) : List Neighbor :=
  let cands := Greedy.unique (cands.mergeSort fun a b => decide (a ≤ b))
  let pool := (cands.filter fun c => !(decide (c = p) || decide (c = kEmptySlot))).map
    fun c => (⟨c, d p c, false⟩ : Neighbor)
  let pool := pool.mergeSort fun a b => !neighborLess b a
  if maxCandidates ≠ 0 ∧ maxCandidates < pool.length then pool.take maxCandidates else pool

/-- The inner loop: mark what `k` occludes. -/
def mark (k : Nat) (rest : List Neighbor) : List Neighbor :=
  rest.map fun nb =>
    if nb.expanded then nb
    else if times alpha (d k nb.id) ≤ nb.dist then { nb with expanded := true }
    else nb

/-- The outer loop, over the pool from the current place on. -/
def pruneLoop (R : Nat) : List Neighbor → List Nat → List Nat
  | [], out => out
  | nb :: rest, out =>
      if out.length < R then
        if nb.expanded then pruneLoop R rest out
        else pruneLoop R (mark d times alpha nb.id rest) (out ++ [nb.id])
      else out
termination_by rest => rest.length
decreasing_by
  · exact Nat.lt_succ_self _
  · rw [mark, List.length_map]
    exact Nat.lt_succ_self _

end RobustPrune

open RobustPrune

/-- `robust_prune`. -/
def robustPrune (d : Nat → Nat → ℚ) (times : ℚ → ℚ → ℚ) (p : Nat) (cands : List Nat) (alpha : ℚ)
    (R maxCandidates : Nat) : List Nat :=
  pruneLoop d times alpha R (pool d p cands maxCandidates) []

namespace RobustPrune

/-! ## What the result should be -/

section Spec

variable (d : Nat → Nat → ℚ) (times : ℚ → ℚ → ℚ) (p : Nat) (alpha : ℚ)

/-- The order by (distance to `p`, id). -/
def before (a b : Nat) : Prop := d p a < d p b ∨ d p a = d p b ∧ a < b

instance : DecidableRel (before d p) := fun a b => by
  unfold before
  infer_instance

/-- A kept `k` occludes `c`. -/
def Occludes (k c : Nat) : Prop := times alpha (d k c) ≤ d p c

instance : DecidableRel (Occludes d times p alpha) := fun k c => by
  unfold Occludes
  infer_instance

def Candidate (cands : List Nat) (c : Nat) : Prop := c ∈ cands ∧ c ≠ p ∧ c ≠ kEmptySlot

instance (cands : List Nat) : DecidablePred (Candidate p cands) := fun c => by
  unfold Candidate
  infer_instance

/-- A candidate among the `maxCandidates` nearest ones. -/
def InPool (cands : List Nat) (maxCandidates c : Nat) : Prop :=
  Candidate p cands c ∧ (maxCandidates = 0 ∨
    (cands.toFinset.filter fun b => Candidate p cands b ∧ before d p b c).card < maxCandidates)

end Spec

variable {d : Nat → Nat → ℚ} {times : ℚ → ℚ → ℚ} {p : Nat} {alpha : ℚ}

theorem before_irrefl (a : Nat) : ¬ before d p a a := by
  rintro (less | ⟨-, less⟩)
  · exact lt_irrefl _ less
  · exact lt_irrefl _ less

theorem before_asymm (a b : Nat) (first : before d p a b) : ¬ before d p b a := by
  rintro (less | ⟨same, less⟩)
  · rcases first with less' | ⟨same', -⟩
    · exact lt_asymm less less'
    · exact absurd same' less.ne'
  · rcases first with less' | ⟨-, less'⟩
    · exact absurd same less'.ne'
    · exact lt_asymm less less'

theorem before_total {a b : Nat} (differ : a ≠ b) : before d p a b ∨ before d p b a := by
  rcases lt_trichotomy (d p a) (d p b) with less | same | greater
  · exact Or.inl (Or.inl less)
  · rcases Nat.lt_or_gt_of_ne differ with less | greater
    · exact Or.inl (Or.inr ⟨same, less⟩)
    · exact Or.inr (Or.inr ⟨same.symm, greater⟩)
  · exact Or.inr (Or.inl greater)

/-! ## The pool -/

/-- The pool before it is cut, as ids. -/
def sortedIds (d : Nat → Nat → ℚ) (p : Nat) (cands : List Nat) : List Nat :=
  ((Greedy.unique (cands.mergeSort fun a b => decide (a ≤ b))).filter
    fun c => !(decide (c = p) || decide (c = kEmptySlot))).mergeSort fun a b => !decide (before d p b a)

theorem mem_sortedIds {cands : List Nat} {c : Nat} :
    c ∈ sortedIds d p cands ↔ Candidate p cands c := by
  unfold sortedIds Candidate
  rw [List.mem_mergeSort, List.mem_filter, Greedy.mem_unique, List.mem_mergeSort]
  simp

theorem before_trans {a b c : Nat} (first : before d p a b) (second : before d p b c) :
    before d p a c := by
  rcases first with less | ⟨same, less⟩
  · rcases second with less' | ⟨same', -⟩
    · exact Or.inl (less.trans less')
    · exact Or.inl (same' ▸ less)
  · rcases second with less' | ⟨same', less'⟩
    · exact Or.inl (same.trans_lt less')
    · exact Or.inr ⟨same.trans same', less.trans less'⟩

theorem nodup_sortedIds (cands : List Nat) : (sortedIds d p cands).Nodup := by
  have rising := Greedy.unique_sorted (OrderStatistic.sorted_mergeSort cands)
  refine (List.mergeSort_perm _ _).nodup_iff.mpr (List.Nodup.filter _ ?_)
  exact rising.imp fun less => ne_of_lt less

theorem sortedIds_sorted (cands : List Nat) : (sortedIds d p cands).Pairwise (before d p) := by
  have sorted : (sortedIds d p cands).Pairwise fun a b => !decide (before d p b a) := by
    refine List.pairwise_mergeSort ?_ ?_ _
    · intro a b c ab bc
      simp only [Bool.not_eq_true', decide_eq_false_iff_not] at ab bc ⊢
      intro ca
      by_cases same : a = b
      · exact bc (same ▸ ca)
      · rcases before_total same with less | less
        · exact bc (before_trans ca less)
        · exact ab less
    · intro a b
      simp only [Bool.or_eq_true, Bool.not_eq_true', decide_eq_false_iff_not]
      by_cases less : before d p b a
      · exact Or.inr (before_asymm b a less)
      · exact Or.inl less
  refine List.Pairwise.imp₂ ?_ sorted (nodup_sortedIds cands)
  intro a b notLess differ
  simp only [Bool.not_eq_true', decide_eq_false_iff_not] at notLess
  exact (before_total differ).resolve_right notLess

/-- The ids of the pool. -/
def poolIds (d : Nat → Nat → ℚ) (p : Nat) (cands : List Nat) (maxCandidates : Nat) : List Nat :=
  if maxCandidates = 0 then sortedIds d p cands else (sortedIds d p cands).take maxCandidates

/-- The pool is the nearest candidates, unmarked. -/
theorem pool_eq (cands : List Nat) (maxCandidates : Nat) :
    pool d p cands maxCandidates =
      (poolIds d p cands maxCandidates).map fun c => ⟨c, d p c, false⟩ := by
  have sorts : (((Greedy.unique (cands.mergeSort fun a b => decide (a ≤ b))).filter
      fun c => !(decide (c = p) || decide (c = kEmptySlot))).map
        fun c => (⟨c, d p c, false⟩ : Neighbor)).mergeSort (fun a b => !neighborLess b a) =
      (sortedIds d p cands).map fun c => ⟨c, d p c, false⟩ := by
    refine (List.map_mergeSort ?_).symm
    intro a _ b _
    rfl
  unfold pool poolIds
  simp only [sorts, List.length_map]
  by_cases all : maxCandidates = 0
  · rw [if_neg (fun both => both.1 all), if_pos all]
  · rw [if_neg all, List.map_take]
    split_ifs with cut
    · rfl
    · refine (List.take_of_length_le ?_).symm
      rw [List.length_map]
      exact Nat.le_of_not_lt fun less => cut ⟨all, less⟩

theorem poolIds_sublist (cands : List Nat) (maxCandidates : Nat) :
    (poolIds d p cands maxCandidates).Sublist (sortedIds d p cands) := by
  unfold poolIds
  split_ifs with all
  · exact List.Sublist.refl _
  · exact List.take_sublist _ _

theorem mem_poolIds {cands : List Nat} {maxCandidates c : Nat} :
    c ∈ poolIds d p cands maxCandidates ↔ InPool d p cands maxCandidates c := by
  have rank : (sortedIds d p cands).countP (fun b => decide (before d p b c)) =
      (cands.toFinset.filter fun b => Candidate p cands b ∧ before d p b c).card := by
    rw [List.countP_eq_length_filter,
      ← List.toFinset_card_of_nodup ((nodup_sortedIds cands).filter _)]
    congr 1
    ext b
    simp only [List.mem_toFinset, List.mem_filter, decide_eq_true_eq, Finset.mem_filter,
      mem_sortedIds]
    constructor
    · rintro ⟨candidate, less⟩
      exact ⟨candidate.1, candidate, less⟩
    · rintro ⟨-, candidate, less⟩
      exact ⟨candidate, less⟩
  unfold InPool
  by_cases candidate : Candidate p cands c
  · have mem : c ∈ sortedIds d p cands := mem_sortedIds.mpr candidate
    simp only [candidate, true_and]
    unfold poolIds
    split_ifs with all
    · simp only [all, true_or, iff_true]
      exact mem
    · rw [Greedy.mem_take_iff before_irrefl before_asymm (sortedIds_sorted cands) mem, rank]
      simp only [all, false_or]
  · constructor
    · intro mem
      exact absurd (mem_sortedIds.mp ((poolIds_sublist cands maxCandidates).subset mem)) candidate
    · intro inPool
      exact absurd inPool.1 candidate

/-! ## The loop -/

/-- The candidates with the marks that the kept ones leave. -/
def marked (d : Nat → Nat → ℚ) (times : ℚ → ℚ → ℚ) (p : Nat) (alpha : ℚ) (kept ids : List Nat) :
    List Neighbor :=
  ids.map fun c => ⟨c, d p c, kept.any fun k => decide (Occludes d times p alpha k c)⟩

/-- **The marks say what the kept ones occlude**, so the loop selects greedily. -/
theorem pruneLoop_eq (R : Nat) (ids kept : List Nat) :
    pruneLoop d times alpha R (marked d times p alpha kept ids) kept =
      Greedy.select (fun k c => decide (Occludes d times p alpha k c)) R kept ids := by
  induction ids generalizing kept with
  | nil =>
      unfold marked
      rw [List.map_nil, pruneLoop, Greedy.select]
  | cons c rest ih =>
      have spread : mark d times alpha c (marked d times p alpha kept rest) =
          marked d times p alpha (kept ++ [c]) rest := by
        unfold mark marked
        rw [List.map_map]
        refine List.map_congr_left fun c' _ => ?_
        simp only [Function.comp, List.any_append, List.any_cons, List.any_nil, Bool.or_false]
        by_cases occluded : (kept.any fun k => decide (Occludes d times p alpha k c')) = true
        · simp [occluded]
        · simp only [Bool.not_eq_true] at occluded
          by_cases now : times alpha (d c c') ≤ d p c'
          · rw [if_neg (by simp [occluded]), if_pos now]
            simp [Occludes, now]
          · rw [if_neg (by simp [occluded]), if_neg now]
            simp [Occludes, now]
      have tail : marked d times p alpha kept (c :: rest) =
          ⟨c, d p c, kept.any fun k => decide (Occludes d times p alpha k c)⟩ ::
            marked d times p alpha kept rest := rfl
      rw [tail, pruneLoop, Greedy.select, spread, ih, ih]

theorem robustPrune_eq (cands : List Nat) (R maxCandidates : Nat) :
    robustPrune d times p cands alpha R maxCandidates =
      Greedy.select (fun k c => decide (Occludes d times p alpha k c)) R []
        (poolIds d p cands maxCandidates) := by
  rw [← pruneLoop_eq, robustPrune, pool_eq]
  rfl

/-- What is kept is a part of the pool, nearest first. -/
theorem robustPrune_sublist (cands : List Nat) (R maxCandidates : Nat) :
    (robustPrune d times p cands alpha R maxCandidates).Sublist (poolIds d p cands maxCandidates) := by
  obtain ⟨new, is, part⟩ := @Greedy.select_sublist Nat
    (fun k c => decide (Occludes d times p alpha k c)) R [] (poolIds d p cands maxCandidates)
  rw [List.nil_append] at is
  rwa [robustPrune_eq, is]

theorem length_robustPrune_le (cands : List Nat) (R maxCandidates : Nat) :
    (robustPrune d times p cands alpha R maxCandidates).length ≤ R := by
  rw [robustPrune_eq]
  exact Greedy.length_select_le (Nat.zero_le R) _

theorem inPool_of_mem_robustPrune {cands : List Nat} {R maxCandidates c : Nat}
    (mem : c ∈ robustPrune d times p cands alpha R maxCandidates) : InPool d p cands maxCandidates c :=
  mem_poolIds.mp ((robustPrune_sublist cands R maxCandidates).subset mem)

theorem robustPrune_rising (cands : List Nat) (R maxCandidates : Nat) :
    (robustPrune d times p cands alpha R maxCandidates).Pairwise (before d p) :=
  ((sortedIds_sorted cands).sublist (poolIds_sublist cands maxCandidates)).sublist
    (robustPrune_sublist cands R maxCandidates)

theorem nodup_robustPrune (cands : List Nat) (R maxCandidates : Nat) :
    (robustPrune d times p cands alpha R maxCandidates).Nodup := by
  refine (robustPrune_rising cands R maxCandidates).imp ?_
  rintro a b less rfl
  exact before_irrefl a less

/-- **The specification.**  The result is duplicate free, of at most `R` candidates in strictly
rising order; the nearest is kept, no kept candidate occludes a later one, and one of the pool is
left out only for an earlier kept one that occludes it or because `R` were kept before it.  Only
the set of the candidates matters. -/
theorem robustPrune_spec (d : Nat → Nat → ℚ) (times : ℚ → ℚ → ℚ) (p : Nat) (cands : List Nat)
    (alpha : ℚ) (R maxCandidates : Nat) :
    let kept := robustPrune d times p cands alpha R maxCandidates
    kept.Nodup ∧ kept.length ≤ R ∧ (∀ c ∈ kept, InPool d p cands maxCandidates c) ∧ p ∉ kept ∧
    kept.Pairwise (before d p) ∧
    (1 ≤ R → ∀ c, InPool d p cands maxCandidates c →
      (∀ b, InPool d p cands maxCandidates b → b = c ∨ before d p c b) → c ∈ kept) ∧
    (kept.Pairwise fun k c => ¬ Occludes d times p alpha k c) ∧
    (∀ c, InPool d p cands maxCandidates c → c ∉ kept →
      (∃ k ∈ kept, before d p k c ∧ Occludes d times p alpha k c) ∨
      (kept.length = R ∧ ∀ k ∈ kept, before d p k c)) ∧
    ∀ cands', (∀ c, c ∈ cands' ↔ c ∈ cands) →
      robustPrune d times p cands' alpha R maxCandidates = kept := by
  have sorted : (poolIds d p cands maxCandidates).Pairwise (before d p) :=
    (sortedIds_sorted cands).sublist (poolIds_sublist cands maxCandidates)
  intro kept
  have selected : kept = Greedy.select (fun k c => decide (Occludes d times p alpha k c)) R []
      (poolIds d p cands maxCandidates) := robustPrune_eq cands R maxCandidates
  have short : kept.length ≤ R := length_robustPrune_le cands R maxCandidates
  have members : ∀ c ∈ kept, InPool d p cands maxCandidates c := by
    intro c mem
    exact inPool_of_mem_robustPrune mem
  refine ⟨nodup_robustPrune cands R maxCandidates, short, members, ?_,
    robustPrune_rising cands R maxCandidates, ?_, ?_, ?_, ?_⟩
  · intro mem
    exact (members p mem).1.2.1 rfl
  · intro positive c inPool nearest
    rw [selected]
    rcases pool : poolIds d p cands maxCandidates with _ | ⟨first, rest⟩
    · have mem := mem_poolIds.mpr inPool
      rw [pool] at mem
      cases mem
    · have firstInPool : InPool d p cands maxCandidates first := by
        rw [← mem_poolIds, pool]
        exact List.mem_cons_self ..
      rcases nearest first firstInPool with rfl | less
      · exact Greedy.head_mem_select positive _ rest
      · -- the first of the pool is before all others
        have mem := mem_poolIds.mpr inPool
        rw [pool] at mem sorted
        rcases List.mem_cons.mp mem with rfl | later
        · exact absurd less (before_irrefl _)
        · exact absurd less (before_asymm _ _ ((List.pairwise_cons.mp sorted).1 c later))
  · rw [selected]
    refine (Greedy.select_independent List.Pairwise.nil _).imp ?_
    intro k c free
    exact of_decide_eq_false free
  · intro c inPool out
    have reason := @Greedy.select_maximal Nat (fun k c => decide (Occludes d times p alpha k c)) R
      (before d p) [] (poolIds d p cands maxCandidates) sorted c (mem_poolIds.mpr inPool)
    rw [← selected] at reason
    rcases reason with mem | ⟨k, mem, less, occludes⟩ | ⟨full, all⟩
    · exact absurd mem out
    · exact Or.inl ⟨k, mem, less, of_decide_eq_true occludes⟩
    · exact Or.inr ⟨Nat.le_antisymm short full, all⟩
  · intro cands' same
    have sets : Greedy.unique (cands'.mergeSort fun a b => decide (a ≤ b)) =
        Greedy.unique (cands.mergeSort fun a b => decide (a ≤ b)) := by
      refine Greedy.eq_of_sorted (Greedy.unique_sorted (OrderStatistic.sorted_mergeSort cands'))
        (Greedy.unique_sorted (OrderStatistic.sorted_mergeSort cands)) fun c => ?_
      rw [Greedy.mem_unique, Greedy.mem_unique, List.mem_mergeSort, List.mem_mergeSort, same]
    change pruneLoop d times alpha R (pool d p cands' maxCandidates) [] =
      pruneLoop d times alpha R (pool d p cands maxCandidates) []
    unfold pool
    rw [sets]

end RobustPrune

end HybridSearch.Engine
