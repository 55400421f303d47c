/-
# Eval.Metrics -- retrieval metrics (py/hybridsearch/eval/metrics.py)

Reciprocal rank, nDCG and recall of one ranking against the grades of its query.  Exact
arithmetic in any ordered field; `disc i` stands for `1 / log2(i + 2)`.  The grades are a
dictionary in insertion order, `qrel.get(d, 0)` is `grade`.
-/
import HybridSearch.Theory.Dict
import HybridSearch.Theory.Discounted

namespace HybridSearch.Eval

open HybridSearch.Theory
open HybridSearch.Theory.Discounted

set_option autoImplicit false

variable {ι : Type} [DecidableEq ι] {K : Type} [Field K] [LinearOrder K] [IsStrictOrderedRing K]

/-- `qrel.get(d, 0)`. -/
def grade (qrel : List (ι × Int)) (d : ι) : Int := (qrel.lookup d).getD 0

/-- The loop of `mrr_at_k`, from the place `i` on. -/
def mrrLoop (qrel : List (ι × Int)) (rel : Int) : Nat → List ι → K
  | _, [] => 0
  | i, d :: rest => if rel ≤ grade qrel d then 1 / ((i : K) + 1) else mrrLoop qrel rel (i + 1) rest

def mrrAtK (ranked : List ι) (qrel : List (ι × Int)) (k : Nat) (rel : Int) : K :=
  mrrLoop qrel rel 0 (ranked.take k)

section

variable (disc : Nat → K)

def dcg (ranked : List ι) (qrel : List (ι × Int)) (k : Nat) : K :=
  (ranked.take k).zipIdx.foldl
    (fun dcg entry =>
      if 0 < grade qrel entry.1 then dcg + (grade qrel entry.1 : K) * disc entry.2 else dcg) 0

/-- The positive grades, greatest first. -/
def ideal (qrel : List (ι × Int)) : List Int :=
  ((qrel.map Prod.snd).filter fun g => decide (0 < g)).mergeSort fun a b => decide (b ≤ a)

def idcg (qrel : List (ι × Int)) (k : Nat) : K :=
  (((ideal qrel).take k).zipIdx.map fun entry => (entry.1 : K) * disc entry.2).sum

def ndcgAtK (ranked : List ι) (qrel : List (ι × Int)) (k : Nat) : K :=
  if 0 < idcg disc qrel k then dcg disc ranked qrel k / idcg disc qrel k else 0

end

def recallAtK (ranked : List ι) (qrel : List (ι × Int)) (k : Nat) (rel : Int) : K :=
  let nrel := ((qrel.map Prod.snd).filter fun g => decide (rel ≤ g)).length
  if nrel = 0 then 0
  else (((ranked.take k).filter fun d => decide (rel ≤ grade qrel d)).length : K) / nrel

/-! ## Gains -/

/-- What a document is worth. -/
def gain (qrel : List (ι × Int)) (d : ι) : K := if 0 < grade qrel d then (grade qrel d : K) else 0

theorem gain_nonneg (qrel : List (ι × Int)) (d : ι) : (0 : K) ≤ gain qrel d := by
  rw [gain]
  split_ifs with positive
  · exact_mod_cast positive.le
  · exact le_rfl

/-- A higher grade is worth more. -/
theorem gain_mono {qrel : List (ι × Int)} {x y : ι} (le : grade qrel x ≤ grade qrel y) :
    (gain qrel x : K) ≤ gain qrel y := by
  rw [gain]
  split_ifs with positive
  · rw [gain, if_pos (positive.trans_le le)]
    exact_mod_cast le
  · exact gain_nonneg qrel y

variable {disc : Nat → K}

omit [LinearOrder K] [IsStrictOrderedRing K] in
theorem dcg_eq (ranked : List ι) (qrel : List (ι × Int)) (k : Nat) :
    dcg disc ranked qrel k = discounted disc 0 ((ranked.take k).map (gain qrel)) := by
  have loop (l : List ι) (i : Nat) (acc : K) : (l.zipIdx i).foldl
      (fun dcg entry =>
        if 0 < grade qrel entry.1 then dcg + (grade qrel entry.1 : K) * disc entry.2 else dcg) acc =
      acc + discounted disc i (l.map (gain qrel)) := by
    induction l generalizing i acc with
    | nil => exact (add_zero acc).symm
    | cons d rest ih =>
        rw [List.zipIdx_cons, List.foldl_cons, ih, List.map_cons, discounted, gain]
        dsimp only
        split_ifs
        · rw [add_assoc]
        · rw [zero_mul, zero_add]
  rw [dcg, loop, zero_add]

omit [LinearOrder K] [IsStrictOrderedRing K] [DecidableEq ι] in
theorem idcg_eq (qrel : List (ι × Int)) (k : Nat) :
    idcg disc qrel k = discounted disc 0 (((ideal qrel).take k).map fun g : Int => (g : K)) := by
  have loop (l : List Int) (i : Nat) : ((l.zipIdx i).map fun entry => (entry.1 : K) * disc entry.2).sum =
      discounted disc i (l.map fun g : Int => (g : K)) := by
    induction l generalizing i with
    | nil => rfl
    | cons g rest ih => rw [List.zipIdx_cons, List.map_cons, List.sum_cons, ih, List.map_cons, discounted]
  rw [idcg, loop]

/-! ## The documents with a grade -/

section Grades

variable {qrel : List (ι × Int)} (distinct : (Dict.keys qrel).Nodup)

include distinct

theorem grade_of_mem {d : ι} {g : Int} (mem : (d, g) ∈ qrel) : grade qrel d = g := by
  rw [grade, Dict.lookup_of_mem distinct mem]
  rfl

omit distinct in
/-- A grade other than the default is an entry. -/
theorem mem_of_grade {d : ι} (graded : grade qrel d ≠ 0) : (d, grade qrel d) ∈ qrel := by
  rw [grade] at graded ⊢
  cases found : qrel.lookup d with
  | none =>
      rw [found] at graded
      exact absurd rfl graded
  | some g =>
      obtain ⟨front, back, rfl, -⟩ := List.lookup_eq_some_iff.mp found
      exact List.mem_append_right _ List.mem_cons_self

/-- The entries that pass `p`, as documents and as grades. -/
theorem map_grade_filter (p : Int → Bool) :
    ((qrel.filter fun entry => p entry.2).map Prod.fst).map (grade qrel) =
      (qrel.map Prod.snd).filter p := by
  rw [List.filter_map, List.map_map]
  refine List.map_congr_left fun entry mem => ?_
  exact grade_of_mem distinct (List.mem_filter.mp mem).1

variable {p : Int → Bool} (default : p 0 = false) {docs : List ι} (nodup : docs.Nodup)

include default nodup

/-- **Distinct documents** that pass have their grades among the grades that pass. -/
theorem map_grade_subperm (pass : ∀ d ∈ docs, p (grade qrel d) = true) :
    (docs.map (grade qrel)).Subperm ((qrel.map Prod.snd).filter p) := by
  rw [← map_grade_filter distinct p]
  have sub : docs.Subperm ((qrel.filter fun entry => p entry.2).map Prod.fst) := by
    refine List.subperm_of_subset nodup fun d mem => ?_
    have passes := pass d mem
    have graded : grade qrel d ≠ 0 := fun zero => by
      rw [zero, default] at passes
      cases passes
    exact List.mem_map.mpr ⟨(d, grade qrel d), List.mem_filter.mpr ⟨mem_of_grade graded, passes⟩, rfl⟩
  obtain ⟨l, perm, sublist⟩ := sub
  exact ⟨l.map (grade qrel), perm.map _, sublist.map _⟩

/-- All of them have all of the grades. -/
theorem map_grade_perm (all : ∀ d, d ∈ docs ↔ p (grade qrel d) = true) :
    (docs.map (grade qrel)).Perm ((qrel.map Prod.snd).filter p) := by
  rw [← map_grade_filter distinct p]
  refine List.Perm.map _ ((List.perm_ext_iff_of_nodup nodup ?_).mpr fun d => ?_)
  · exact (List.filter_sublist.map Prod.fst).nodup distinct
  · rw [all, List.mem_map]
    constructor
    · intro passes
      have graded : grade qrel d ≠ 0 := fun zero => by
        rw [zero, default] at passes
        cases passes
      exact ⟨(d, grade qrel d), List.mem_filter.mpr ⟨mem_of_grade graded, passes⟩, rfl⟩
    · rintro ⟨⟨d', g⟩, mem, rfl⟩
      obtain ⟨entry, passes⟩ := List.mem_filter.mp mem
      rw [grade_of_mem distinct entry]
      exact passes

end Grades

/-! ## nDCG -/

/-- A positive discount that does not grow. -/
structure Discount (disc : Nat → K) : Prop where
  positive : ∀ i, 0 < disc i
  falls : ∀ i, disc (i + 1) ≤ disc i

omit [DecidableEq ι] in
theorem ideal_perm (qrel : List (ι × Int)) :
    (ideal qrel).Perm ((qrel.map Prod.snd).filter fun g => decide (0 < g)) := List.mergeSort_perm _ _

omit [DecidableEq ι] in
theorem ideal_sorted (qrel : List (ι × Int)) : (ideal qrel).Pairwise fun a b => b ≤ a := by
  have sorted := @List.pairwise_mergeSort Int (fun a b => decide (b ≤ a))
    (fun a b c first second => by
      rw [decide_eq_true_eq] at *
      exact second.trans first)
    (fun a b => by
      rw [Bool.or_eq_true, decide_eq_true_eq, decide_eq_true_eq]
      exact le_total b a)
    ((qrel.map Prod.snd).filter fun g => decide (0 < g))
  exact sorted.imp of_decide_eq_true

omit [DecidableEq ι] in
theorem ideal_pos {qrel : List (ι × Int)} {g : Int} (mem : g ∈ ideal qrel) : 0 < g :=
  of_decide_eq_true (List.mem_filter.mp ((ideal_perm qrel).mem_iff.mp mem)).2

omit [DecidableEq ι] in
theorem ideal_nonneg {qrel : List (ι × Int)} {k : Nat} :
    ∀ y ∈ ((ideal qrel).take k).map fun g : Int => (g : K), 0 ≤ y := by
  intro y mem
  obtain ⟨g, inside, rfl⟩ := List.mem_map.mp mem
  exact_mod_cast (ideal_pos (List.mem_of_mem_take inside)).le

omit [LinearOrder K] [IsStrictOrderedRing K] in
/-- The gains of documents are those of the ones that are graded positive. -/
theorem sum_gain (qrel : List (ι × Int)) (docs : List ι) : (docs.map (gain qrel)).sum =
    (((docs.filter fun d => decide (0 < grade qrel d)).map (grade qrel)).map fun g : Int => (g : K)).sum := by
  induction docs with
  | nil => rfl
  | cons d rest ih =>
      rw [List.map_cons, List.sum_cons, ih, gain]
      split_ifs with positive
      · rw [List.filter_cons_of_pos (by simpa using positive), List.map_cons, List.map_cons, List.sum_cons]
      · rw [List.filter_cons_of_neg (by simpa using positive), zero_add]

section Ndcg

variable {qrel : List (ι × Int)} (distinct : (Dict.keys qrel).Nodup)

include distinct

/-- Some documents are worth no more than as many of the greatest grades. -/
theorem sum_gain_le {docs : List ι} (nodup : docs.Nodup) {n : Nat} (short : docs.length ≤ n) :
    (docs.map (gain qrel)).sum ≤ (((ideal qrel).take n).map fun g : Int => (g : K)).sum := by
  rw [sum_gain]
  generalize graded : docs.filter (fun d => decide (0 < grade qrel d)) = found
  have few : found.length ≤ n := by
    rw [← graded]
    exact (List.length_filter_le _ _).trans short
  have chosen : (found.map (grade qrel)).Subperm (ideal qrel) := by
    refine List.Subperm.trans ?_ (ideal_perm qrel).symm.subperm
    refine map_grade_subperm distinct (by decide) (graded ▸ nodup.filter _) fun d mem => ?_
    rw [← graded] at mem
    exact (List.mem_filter.mp mem).2
  have cast_sorted : ((ideal qrel).map fun g : Int => (g : K)).Pairwise fun a b => b ≤ a :=
    List.pairwise_map.mpr ((ideal_sorted qrel).imp fun le => by exact_mod_cast le)
  obtain ⟨l, perm, sub⟩ := chosen
  refine (sum_le_of_subperm cast_sorted ⟨l.map _, perm.map _, sub.map _⟩).trans ?_
  rw [List.map_take, List.length_map, List.length_map]
  refine List.Sublist.sum_le_sum ?_ ?_
  · rw [← Nat.min_eq_left few, ← List.take_take]
    exact List.take_sublist _ _
  · rw [← List.map_take]
    exact ideal_nonneg

variable (discount : Discount disc)

include discount

/-- **No ranking gains more than the ideal one.** -/
theorem dcg_le_idcg {ranked : List ι} (nodup : ranked.Nodup) (k : Nat) :
    dcg disc ranked qrel k ≤ idcg disc qrel k := by
  rw [dcg_eq, idcg_eq]
  refine discounted_le discount.positive discount.falls ideal_nonneg (fun j => ?_) 0
  rw [← List.map_take, ← List.map_take, List.take_take, List.take_take]
  exact sum_gain_le distinct (nodup.sublist (List.take_sublist _ _)) (List.length_take_le _ _)

omit distinct in
theorem dcg_nonneg (ranked : List ι) (k : Nat) : 0 ≤ dcg disc ranked qrel k := by
  rw [dcg_eq]
  refine discounted_nonneg discount.positive (fun g mem => ?_) 0
  obtain ⟨d, -, rfl⟩ := List.mem_map.mp mem
  exact gain_nonneg qrel d

theorem ndcg_bounds {ranked : List ι} (nodup : ranked.Nodup) (k : Nat) :
    0 ≤ ndcgAtK disc ranked qrel k ∧ ndcgAtK disc ranked qrel k ≤ 1 := by
  rw [ndcgAtK]
  split_ifs with positive
  · exact ⟨div_nonneg (dcg_nonneg discount ranked k) positive.le,
      (div_le_one positive).mpr (dcg_le_idcg distinct discount nodup k)⟩
  · exact ⟨le_rfl, zero_le_one⟩

omit distinct in
/-- A positive grade makes the ideal positive. -/
theorem idcg_pos {d : ι} (positive : 0 < grade qrel d) {k : Nat} (k_pos : 1 ≤ k) :
    0 < idcg disc qrel k := by
  have entry := mem_of_grade positive.ne'
  have inside : grade qrel d ∈ ideal qrel := (ideal_perm qrel).mem_iff.mpr
    (List.mem_filter.mpr ⟨List.mem_map.mpr ⟨_, entry, rfl⟩, decide_eq_true positive⟩)
  rw [idcg_eq]
  obtain ⟨m, rfl⟩ : ∃ m, k = m + 1 := ⟨k - 1, by omega⟩
  cases first : ideal qrel with
  | nil =>
      rw [first] at inside
      cases inside
  | cons g rest =>
      rw [List.take_succ_cons, List.map_cons]
      refine discounted_pos discount.positive ?_ (fun y mem => ?_) 0
      · exact_mod_cast ideal_pos (first ▸ List.mem_cons_self : g ∈ ideal qrel)
      · obtain ⟨g', mem', rfl⟩ := List.mem_map.mp mem
        have known : g' ∈ ideal qrel := first ▸ List.mem_cons_of_mem _ (List.mem_of_mem_take mem')
        exact_mod_cast (ideal_pos known).le

/-- **A ranking that starts with the graded documents**, best first, is ideal. -/
theorem ndcg_eq_one {front back : List ι} (nodup : (front ++ back).Nodup)
    (sorted : front.Pairwise fun a b => grade qrel b ≤ grade qrel a)
    (all : ∀ d, d ∈ front ↔ 0 < grade qrel d) {d : ι} (positive : 0 < grade qrel d) {k : Nat}
    (k_pos : 1 ≤ k) : ndcgAtK disc (front ++ back) qrel k = 1 := by
  obtain ⟨front_nodup, -, apart⟩ := List.nodup_append.mp nodup
  have ideal_is : front.map (grade qrel) = ideal qrel := by
    refine List.Perm.eq_of_pairwise (fun a b _ _ le ge => le_antisymm ge le)
      (List.pairwise_map.mpr sorted) (ideal_sorted qrel) ?_
    refine (map_grade_perm distinct (by decide) front_nodup fun d => ?_).trans (ideal_perm qrel).symm
    rw [all, decide_eq_true_eq]
  have gains : ((front ++ back).take k).map (gain qrel) =
      ((ideal qrel).take k).map (fun g : Int => (g : K)) ++
        List.replicate (back.take (k - front.length)).length 0 := by
    rw [List.take_append, List.map_append, ← ideal_is, ← List.map_take, List.map_map]
    congr 1
    · refine List.map_congr_left fun d mem => ?_
      exact if_pos ((all d).mp (List.mem_of_mem_take mem))
    · refine List.eq_replicate_iff.mpr ⟨List.length_map _, fun g mem => ?_⟩
      obtain ⟨d, inside, rfl⟩ := List.mem_map.mp mem
      refine if_neg fun graded => ?_
      exact apart d ((all d).mpr graded) d (List.mem_of_mem_take inside) rfl
  have ideal_pos_ := idcg_pos discount positive k_pos
  have same : dcg disc (front ++ back) qrel k = idcg disc qrel k := by
    rw [dcg_eq, gains, discounted_append, discounted_zeros, add_zero, idcg_eq]
  rw [ndcgAtK, if_pos ideal_pos_, same, div_self ideal_pos_.ne']

omit distinct in
/-- **Swapping a document** with a lower-graded one above it loses nothing. -/
theorem ndcg_swap {x y : ι} (le : grade qrel x ≤ grade qrel y) (front back : List ι) (k : Nat) :
    ndcgAtK disc (front ++ x :: y :: back) qrel k ≤ ndcgAtK disc (front ++ y :: x :: back) qrel k := by
  have prefixes (n : Nat) : (((front ++ x :: y :: back).take n).map (gain qrel)).sum ≤
      ((((front ++ y :: x :: back).take n).map (gain qrel)).sum : K) := by
    induction front generalizing n with
    | nil =>
        match n with
        | 0 => exact le_rfl
        | 1 => simpa using gain_mono le
        | n + 2 =>
            rw [List.nil_append, List.nil_append]
            simp only [List.take_succ_cons, List.map_cons, List.sum_cons]
            rw [← add_assoc, ← add_assoc, add_comm (gain qrel x)]
    | cons d rest ih =>
        cases n with
        | zero => exact le_rfl
        | succ n =>
            simp only [List.cons_append, List.take_succ_cons, List.map_cons, List.sum_cons]
            exact add_le_add le_rfl (ih n)
  have gains : dcg disc (front ++ x :: y :: back) qrel k ≤ dcg disc (front ++ y :: x :: back) qrel k := by
    rw [dcg_eq, dcg_eq]
    refine discounted_le discount.positive discount.falls (fun g mem => ?_) (fun j => ?_) 0
    · obtain ⟨d, -, rfl⟩ := List.mem_map.mp mem
      exact gain_nonneg qrel d
    · rw [← List.map_take, ← List.map_take, List.take_take, List.take_take]
      exact prefixes _
  rw [ndcgAtK, ndcgAtK]
  split_ifs with positive
  · exact div_le_div_of_nonneg_right gains positive.le
  · exact le_rfl

end Ndcg

/-! ## Reciprocal rank and recall -/

omit [LinearOrder K] [IsStrictOrderedRing K] in
theorem mrrLoop_eq (qrel : List (ι × Int)) (rel : Int) (i : Nat) (ranked : List ι) :
    mrrLoop qrel rel i ranked = (0 : K) ∨
      ∃ r < ranked.length, mrrLoop qrel rel i ranked = 1 / (((i + r + 1 : Nat)) : K) := by
  induction ranked generalizing i with
  | nil => exact Or.inl rfl
  | cons d rest ih =>
      rw [mrrLoop]
      split_ifs with relevant
      · refine Or.inr ⟨0, Nat.succ_pos _, ?_⟩
        rw [Nat.add_zero, Nat.cast_add, Nat.cast_one]
      · refine (ih (i + 1)).imp id ?_
        rintro ⟨r, less, value_eq⟩
        refine ⟨r + 1, Nat.succ_lt_succ less, value_eq.trans ?_⟩
        rw [Nat.add_right_comm i 1 r, Nat.add_assoc i r 1]

section Recall

variable {qrel : List (ι × Int)} (distinct : (Dict.keys qrel).Nodup) {rel : Int} (level : 1 ≤ rel)

include distinct level

theorem recall_bounds {ranked : List ι} (nodup : ranked.Nodup) (k : Nat) :
    (0 : K) ≤ recallAtK ranked qrel k rel ∧ recallAtK ranked qrel k rel ≤ (1 : K) := by
  rw [recallAtK]
  split_ifs with noRelevant
  · exact ⟨le_rfl, zero_le_one⟩
  · have chosen := (map_grade_subperm distinct (p := fun g => decide (rel ≤ g)) (decide_eq_false (show ¬rel ≤ 0 by omega))
      ((nodup.sublist (List.take_sublist k _)).filter _)
      (fun d mem => (List.mem_filter.mp mem).2)).length_le
    rw [List.length_map] at chosen
    have relevant_pos : (0 : K) < ((qrel.map Prod.snd).filter fun g => decide (rel ≤ g)).length := by
      exact_mod_cast Nat.pos_of_ne_zero noRelevant
    exact ⟨div_nonneg (Nat.cast_nonneg _) relevant_pos.le, (div_le_one relevant_pos).mpr (by exact_mod_cast chosen)⟩

omit distinct level in
/-- A deeper cut finds no fewer. -/
theorem recall_mono (ranked : List ι) {k k' : Nat} (le : k ≤ k') :
    (recallAtK ranked qrel k rel : K) ≤ recallAtK ranked qrel k' rel := by
  rw [recallAtK, recallAtK]
  split_ifs with noRelevant
  · exact le_rfl
  · refine div_le_div_of_nonneg_right ?_ (Nat.cast_nonneg _)
    have deeper : (ranked.take k).Sublist (ranked.take k') := by
      rw [← Nat.min_eq_left le, ← List.take_take]
      exact List.take_sublist _ _
    exact_mod_cast (deeper.filter _).length_le

end Recall

/-- **Retrieval metrics are normalised**, for any grades and any discount. -/
theorem metrics_normalised (discount : Discount disc) {qrel : List (ι × Int)}
    (distinct : (Dict.keys qrel).Nodup) {ranked : List ι} (nodup : ranked.Nodup) {k : Nat}
    (k_pos : 1 ≤ k) {rel : Int} (level : 1 ≤ rel) :
    (0 ≤ ndcgAtK disc ranked qrel k ∧ ndcgAtK disc ranked qrel k ≤ 1) ∧
    (∀ front back, ranked = front ++ back → (∃ d, 0 < grade qrel d) →
      (∀ d, d ∈ front ↔ 0 < grade qrel d) → (front.Pairwise fun a b => grade qrel b ≤ grade qrel a) →
      ndcgAtK disc ranked qrel k = 1) ∧
    ((0 : K) ≤ recallAtK ranked qrel k rel ∧ recallAtK ranked qrel k rel ≤ (1 : K)) ∧
    (mrrAtK ranked qrel k rel = (0 : K) ∨
      ∃ r : Nat, 1 ≤ r ∧ r ≤ k ∧ mrrAtK ranked qrel k rel = 1 / (r : K)) ∧
    (∀ front x y back, ranked = front ++ x :: y :: back → grade qrel x < grade qrel y →
      ndcgAtK disc ranked qrel k ≤ ndcgAtK disc (front ++ y :: x :: back) qrel k) ∧
    ∀ k', k ≤ k' → (recallAtK ranked qrel k rel : K) ≤ recallAtK ranked qrel k' rel := by
  refine ⟨ndcg_bounds distinct discount nodup k, ?_, recall_bounds distinct level nodup k, ?_, ?_,
    fun k' le => recall_mono ranked le⟩
  · rintro front back rfl ⟨d, positive⟩ all sorted
    exact ndcg_eq_one distinct discount nodup sorted all positive k_pos
  · rcases mrrLoop_eq (K := K) qrel rel 0 (ranked.take k) with zero | ⟨r, less, value_eq⟩
    · exact Or.inl zero
    · rw [List.length_take] at less
      refine Or.inr ⟨0 + r + 1, by omega, by omega, value_eq⟩
  · rintro front x y back rfl less
    exact ndcg_swap discount less.le front back k

/-- An unjudged document above two judged ones, and a negative grade. -/
theorem metrics_normalised_three :
    (0 : ℚ) ≤ ndcgAtK (fun _ => 1) ["d7", "d3", "d5"] [("d3", 2), ("d5", -1), ("d9", 1)] 2 ∧
      ndcgAtK (fun _ => 1) ["d7", "d3", "d5"] [("d3", 2), ("d5", -1), ("d9", 1)] 2 ≤ (1 : ℚ) :=
  (metrics_normalised ⟨fun _ => zero_lt_one, fun _ => le_rfl⟩ (by decide) (by decide) (by decide)
    (le_refl 1)).1

end HybridSearch.Eval
