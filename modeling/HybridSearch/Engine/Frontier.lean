/-
# Engine.Frontier -- a top-k over documents in ascending order

Documents are met in ascending order, so what a search has kept is the best `k` of the
matching documents below some `frontier` (`Reached`).  A document whose score does not
exceed any kept one cannot enter (`Excluded`): on equal scores the earlier document wins.
So a search may move its frontier over such documents without a look at them
(`Reached.skip`), and what is excluded stays so (`Excluded.push`).
-/
import HybridSearch.Engine.TopK

namespace HybridSearch.Engine

open HybridSearch.Theory

set_option autoImplicit false

/-- No document with this score can enter any more. -/
structure Excluded (top : TopK) (s : ℚ) : Prop where
  full : top.k ≤ top.heap.length
  low : ∀ c ∈ top.heap, s ≤ c.score

section Frontier

variable (matched : Nat → Prop) [DecidablePred matched] (score : Nat → ℚ)

/-- The matching documents below `F`, with their scores. -/
def below (F : Nat) : List ScoredDoc := ((List.range F).filter matched).map fun d => ⟨d, score d⟩

/-- The search has kept the best of the documents below `F`. -/
def Reached (k : Nat) (top : TopK) (F : Nat) : Prop :=
  top = ⟨k, BestK.best ranksLe k (below matched score F)⟩

variable {matched score}

theorem mem_below {F : Nat} {c : ScoredDoc} :
    c ∈ below matched score F ↔ c.doc < F ∧ matched c.doc ∧ c.score = score c.doc := by
  rw [below, List.mem_map]
  constructor
  · rintro ⟨d, mem, rfl⟩
    obtain ⟨inside, hit⟩ := List.mem_filter.mp mem
    exact ⟨List.mem_range.mp inside, of_decide_eq_true hit, rfl⟩
  · rintro ⟨inside, hit, same⟩
    refine ⟨c.doc, List.mem_filter.mpr ⟨List.mem_range.mpr inside, decide_eq_true hit⟩, ?_⟩
    rw [← same]

theorem nodup_below (F : Nat) : (below matched score F).Nodup := by
  rw [below]
  exact (List.nodup_range.filter _).map fun d e same => congrArg Scored.doc same

theorem below_zero : below matched score 0 = [] := rfl

theorem below_succ_of_matched {F : Nat} (hit : matched F) :
    below matched score (F + 1) = below matched score F ++ [⟨F, score F⟩] := by
  rw [below, List.range_succ, List.filter_append, List.map_append, List.filter_singleton,
    decide_eq_true hit]
  rfl

theorem below_succ_of_not {F : Nat} (miss : ¬matched F) :
    below matched score (F + 1) = below matched score F := by
  rw [below, List.range_succ, List.filter_append, List.map_append, List.filter_singleton,
    decide_eq_false miss]
  exact List.append_nil _

variable {k : Nat} {top : TopK} {F : Nat}

namespace Reached

/-- **The frontier passes documents that cannot enter.** -/
theorem skip (reached : Reached matched score k top F) {F' : Nat} (le : F ≤ F')
    (out : ∀ d, F ≤ d → d < F' → matched d → Excluded top (score d)) : Reached matched score k top F' := by
  induction F', le using Nat.le_induction with
  | base => exact reached
  | succ F' le ih =>
      have here := ih fun d low high => out d low (Nat.lt_succ_of_lt high)
      rw [Reached] at here ⊢
      by_cases hit : matched F'
      · have excluded := out F' le (Nat.lt_succ_self F') hit
        rw [here] at excluded ⊢
        rw [below_succ_of_matched hit]
        refine congrArg (TopK.mk k) (BestK.best_append_worse ranksLe_linear ?_ ?_ ?_).symm
        · rw [← below_succ_of_matched hit]
          exact nodup_below (F' + 1)
        · have full := excluded.full
          rw [BestK.best, List.length_take, List.length_mergeSort] at full
          exact le_min_iff.mp full |>.2
        · intro x last y kept
          rw [List.mem_singleton.mp last]
          have earlier := (mem_below.mp (BestK.mem_of_mem_best kept)).1
          refine decide_eq_true (.inr (Scored.ranksBefore_iff.mpr ?_))
          rcases (excluded.low y kept).lt_or_eq with higher | tied
          · exact .inl higher
          · exact .inr ⟨tied.symm, earlier⟩
      · rw [below_succ_of_not hit]
        exact here

/-- **The next matching document is pushed.** -/
theorem push (reached : Reached matched score k top F) {d : Nat} (le : F ≤ d)
    (unmatched : ∀ e, F ≤ e → e < d → ¬matched e) (hit : matched d) :
    Reached matched score k (top.push d (score d)).2 (d + 1) := by
  have here := reached.skip le fun e low high hit => absurd hit (unmatched e low high)
  rw [Reached] at here ⊢
  rw [here, below_succ_of_matched hit]
  exact TopK.push_best rfl d (score d)

end Reached

/-- A score that does not exceed the threshold. -/
theorem Excluded.of_threshold (reached : Reached matched score k top F) {s x : ℚ}
    (full : top.full = true) (threshold : top.threshold = some x) (le : s ≤ x) : Excluded top s := by
  rw [TopK.threshold, if_pos full, Option.map_eq_some_iff] at threshold
  obtain ⟨worst, front, rfl⟩ := threshold
  refine ⟨of_decide_eq_true full, fun c mem => le.trans ?_⟩
  have sorted : top.heap.Pairwise fun a b => ranksLe a b = true := by
    rw [Reached] at reached
    rw [reached]
    exact (BestK.sorted ranksLe_linear _).sublist (List.take_sublist _ _)
  obtain ⟨others, heap⟩ := List.getLast?_eq_some_iff.mp front
  rw [heap] at mem sorted
  rcases List.mem_append.mp mem with other | last
  · rcases of_decide_eq_true ((List.pairwise_append.mp sorted).2.2 c other worst (List.mem_singleton_self _))
      with rfl | before
    · exact le_rfl
    · rcases Scored.ranksBefore_iff.mp before with higher | ⟨tied, -⟩
      · exact higher.le
      · exact tied.ge
  · rw [List.mem_singleton.mp last]

end Frontier

section Push

variable {top : TopK} {s : ℚ}

theorem Excluded.isFull (excluded : Excluded top s) : top.full = true := decide_eq_true excluded.full

theorem Excluded.mono (excluded : Excluded top s) {s' : ℚ} (le : s' ≤ s) : Excluded top s' :=
  ⟨excluded.full, fun c mem => le.trans (excluded.low c mem)⟩

/-- What cannot enter cannot enter later. -/
theorem Excluded.push (excluded : Excluded top s) (d : Nat) (s' : ℚ) :
    Excluded (top.push d s').2 s := by
  rw [TopK.push]
  by_cases none_kept : top.k = 0
  · rw [if_pos none_kept]
    exact excluded
  · rw [if_neg none_kept, if_neg (not_not.mpr excluded.isFull)]
    cases front : top.front with
    | none => exact excluded
    | some worst =>
        by_cases before : Scored.ranksBefore ⟨d, s'⟩ worst
        · obtain ⟨others, heap⟩ := List.getLast?_eq_some_iff.mp front
          simp only [before, not_true, if_false, heap, List.dropLast_concat]
          constructor
          · have full := excluded.full
            rw [heap, List.length_append, List.length_singleton] at full
            rw [List.orderedInsert_length]
            exact full
          · intro c mem
            rcases List.mem_cons.mp ((List.perm_orderedInsert Scored.ranksBefore _ _).mem_iff.mp mem) with rfl | old
            · have low := excluded.low worst (by rw [heap]; simp)
              rcases Scored.ranksBefore_iff.mp before with higher | ⟨tied, -⟩
              · exact low.trans higher.le
              · exact low.trans tied.ge
            · exact excluded.low c (by rw [heap]; exact List.mem_append_left _ old)
        · simp only [before, not_false_eq_true, if_true]
          exact excluded

/-- A document behind all kept ones that cannot enter is not admitted. -/
theorem Excluded.push_eq (excluded : Excluded top s) {d : Nat} (later : ∀ c ∈ top.heap, c.doc < d) :
    top.push d s = (false, top) := by
  rw [TopK.push]
  by_cases none_kept : top.k = 0
  · rw [if_pos none_kept]
  · rw [if_neg none_kept, if_neg (not_not.mpr excluded.isFull)]
    cases front : top.front with
    | none => rfl
    | some worst =>
        have mem : worst ∈ top.heap := List.mem_of_getLast? front
        have after : ¬Scored.ranksBefore ⟨d, s⟩ worst := by
          rw [Scored.ranksBefore_iff]
          rintro (higher | ⟨-, earlier⟩)
          · exact absurd (excluded.low worst mem) (not_le.mpr higher)
          · exact absurd (later worst mem) (Nat.lt_asymm earlier)
        simp only [after, not_false_eq_true, if_true]

end Push

end HybridSearch.Engine
