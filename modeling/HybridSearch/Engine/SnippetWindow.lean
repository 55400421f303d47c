/-
# Engine.SnippetWindow -- what a snippet guarantees

The loop over the hits finds the best window that starts at a hit (`chosen`), and
the edges that are then moved keep to three facts: the place they hold is inside,
they are on characters, and there are at most `maxChars` bytes between them.

A window can come out empty: without a hit, when the text begins with whitespace
and no word ends within the limit (`selectSnippet_nonempty_iff`).
-/
import HybridSearch.Engine.Snippet

namespace HybridSearch.Engine

open HybridSearch.Theory

set_option autoImplicit false

/-- Analysed tokens as the tokenizer makes them: not empty, in order and disjoint, on the
text's characters, and without whitespace in them. -/
structure Analysed (text : Bytes) (toks : List AnalyzedToken) : Prop where
  nonempty : ∀ t ∈ toks, t.start < t.stop
  ordered : toks.Pairwise fun a b => a.stop ≤ b.start
  boundary : ∀ t ∈ toks, Utf8.Boundary text t.start ∧ Utf8.Boundary text t.stop
  unspaced : ∀ t ∈ toks, ∀ i, t.start ≤ i → i < t.stop → Snippet.spaceAt text i = false

namespace Snippet

/-! ## The hits -/

/-- The hits of a text, as its tokens are. -/
structure Placed (text : Bytes) (hits : List Hit) : Prop where
  nonempty : ∀ h ∈ hits, h.start < h.stop
  ordered : hits.Pairwise fun a b => a.stop ≤ b.start
  boundary : ∀ h ∈ hits, Utf8.Boundary text h.start ∧ Utf8.Boundary text h.stop
  unspaced : ∀ h ∈ hits, ∀ i, h.start ≤ i → i < h.stop → spaceAt text i = false

variable {text : Bytes} {hits : List Hit} {toks : List AnalyzedToken} {terms : List Bytes}

theorem mem_hitsOf {h : Hit} (mem : h ∈ hitsOf toks terms) :
    ∃ t ∈ toks, h.start = t.start ∧ h.stop = t.stop ∧ t.term ∈ terms := by
  obtain ⟨t, held, is⟩ := List.mem_filterMap.mp mem
  obtain ⟨i, found, rfl⟩ := Option.map_eq_some_iff.mp is
  obtain ⟨inside, here, -⟩ := List.idxOf?_eq_some_iff.mp found
  exact ⟨t, held, rfl, rfl, here ▸ List.getElem_mem inside⟩

theorem hitsOf_placed (analysed : Analysed text toks) : Placed text (hitsOf toks terms) := by
  have token : ∀ h ∈ hitsOf toks terms, ∃ t ∈ toks, h.start = t.start ∧ h.stop = t.stop := by
    intro h mem
    obtain ⟨t, held, start, stop, -⟩ := mem_hitsOf mem
    exact ⟨t, held, start, stop⟩
  constructor
  · intro h mem
    obtain ⟨t, held, start, stop⟩ := token h mem
    rw [start, stop]
    exact analysed.nonempty t held
  · refine List.Pairwise.filterMap _ ?_ analysed.ordered
    intro a b le h isH h' isH'
    obtain ⟨i, -, rfl⟩ := Option.map_eq_some_iff.mp isH
    obtain ⟨i', -, rfl⟩ := Option.map_eq_some_iff.mp isH'
    exact le
  · intro h mem
    obtain ⟨t, held, start, stop⟩ := token h mem
    rw [start, stop]
    exact analysed.boundary t held
  · intro h mem
    obtain ⟨t, held, start, stop⟩ := token h mem
    rw [start, stop]
    exact analysed.unspaced t held

/-- No hit without a token that is a query term. -/
theorem hitsOf_eq_nil_iff : hitsOf toks terms = [] ↔ ∀ t ∈ toks, t.term ∉ terms := by
  rw [hitsOf, List.filterMap_eq_nil_iff]
  refine forall₂_congr fun t _ => ?_
  rw [Option.map_eq_none_iff, List.idxOf?_eq_none_iff]

theorem hitAt_mem {i : Nat} (inside : i < hits.length) : hitAt hits i ∈ hits := by
  rw [hitAt, List.getD_eq_getElem _ _ inside]
  exact List.getElem_mem inside

section Placed

variable (placed : Placed text hits)

include placed

theorem Placed.start_lt {i : Nat} (inside : i < hits.length) :
    (hitAt hits i).start < (hitAt hits i).stop :=
  placed.nonempty _ (hitAt_mem inside)

theorem Placed.stop_le {i : Nat} (inside : i < hits.length) :
    (hitAt hits i).stop ≤ text.length :=
  Utf8.boundary_le (placed.boundary _ (hitAt_mem inside)).2

theorem Placed.before {i j : Nat} (less : i < j) (inside : j < hits.length) :
    (hitAt hits i).stop ≤ (hitAt hits j).start := by
  rw [hitAt, hitAt, List.getD_eq_getElem _ _ (less.trans inside), List.getD_eq_getElem _ _ inside]
  exact List.pairwise_iff_getElem.mp placed.ordered i j (less.trans inside) inside less

theorem Placed.stop_mono {i j : Nat} (le : i ≤ j) (inside : j < hits.length) :
    (hitAt hits i).stop ≤ (hitAt hits j).stop := by
  rcases Nat.eq_or_lt_of_le le with rfl | less
  · exact le_rfl
  · have := placed.before less inside
    have := placed.start_lt inside
    omega

theorem Placed.start_mono {i j : Nat} (le : i ≤ j) (inside : j < hits.length) :
    (hitAt hits i).start ≤ (hitAt hits j).start := by
  rcases Nat.eq_or_lt_of_le le with rfl | less
  · exact le_rfl
  · have := placed.before less inside
    have := placed.start_lt (less.trans inside)
    omega

theorem Placed.le_start {i : Nat} (inside : i < hits.length) : i ≤ (hitAt hits i).start := by
  induction i with
  | zero => exact Nat.zero_le _
  | succ i ih =>
      have := placed.before (Nat.lt_add_one i) inside
      have := placed.start_lt (show i < hits.length by omega)
      have := ih (by omega)
      omega

/-- There are no more hits than bytes. -/
theorem Placed.length_le : hits.length ≤ text.length := by
  rcases Nat.eq_zero_or_pos hits.length with none | some
  · omega
  · have := placed.le_start (show hits.length - 1 < hits.length by omega)
    have := placed.start_lt (show hits.length - 1 < hits.length by omega)
    have := placed.stop_le (show hits.length - 1 < hits.length by omega)
    omega

end Placed

/-! ## Windows that start at a hit -/

/-- Hits `i` to `j - 1` are within the limit. -/
def Fits (hits : List Hit) (maxChars i j : Nat) : Prop :=
  i < j ∧ j ≤ hits.length ∧ (hitAt hits (j - 1)).stop - (hitAt hits i).start ≤ maxChars

/-- The number of distinct terms among hits `i` to `j - 1`. -/
def distinctIn (hits : List Hit) (i j : Nat) : Nat :=
  (((hits.drop i).take (j - i)).map Hit.term).toFinset.card

/-- Window `i'`-`j'` is no better than window `i`-`j`: by distinct terms, then hits, then the
tightest span, then the earliest start. -/
def NoBetter (hits : List Hit) (i' j' i j : Nat) : Prop :=
  distinctIn hits i' j' < distinctIn hits i j ∨ distinctIn hits i' j' = distinctIn hits i j ∧
    (j' - i' < j - i ∨ j' - i' = j - i ∧
      ((hitAt hits (j - 1)).stop - (hitAt hits i).start <
          (hitAt hits (j' - 1)).stop - (hitAt hits i').start ∨
        (hitAt hits (j - 1)).stop - (hitAt hits i).start =
            (hitAt hits (j' - 1)).stop - (hitAt hits i').start ∧
          (hitAt hits i).start ≤ (hitAt hits i').start))

/-- **A best window** of those that start at a hit and fit. -/
def Best (hits : List Hit) (maxChars i j : Nat) : Prop :=
  Fits hits maxChars i j ∧ ∀ i' j', Fits hits maxChars i' j' → NoBetter hits i' j' i j

/-- Counting the terms not seen before. -/
theorem card_fresh (seen : Nat → Nat) (t : Nat) (S : Finset Nat) :
    ((insert t S).filter fun x => seen x = 0).card =
      (if seen t = 0 then 1 else 0) +
        (S.filter fun x => Function.update seen t (seen t + 1) x = 0).card := by
  have others : (S.filter fun x => Function.update seen t (seen t + 1) x = 0) =
      (S.filter fun x => seen x = 0).erase t := by
    ext x
    by_cases same : x = t
    · simp [same]
    · simp [same]
  rw [others, Finset.filter_insert]
  split
  · rename_i fresh
    have apart : insert t (S.filter fun x => seen x = 0) =
        insert t ((S.filter fun x => seen x = 0).erase t) := by
      ext x
      simp only [Finset.mem_insert, Finset.mem_erase]
      tauto
    rw [apart, Finset.card_insert_of_notMem (Finset.notMem_erase _ _), Nat.add_comm]
  · rename_i old
    rw [Finset.erase_eq_of_notMem (by simp [old]), Nat.zero_add]

/-- The hits of `extend`, from the first on, while they fit. -/
theorem extend_eq (maxChars start : Nat) (l : List Hit) (seen : Nat → Nat) (distinct j : Nat) :
    extend maxChars start l seen distinct j =
      (distinct + (((l.takeWhile fun h => decide (sub32 h.stop start ≤ maxChars)).map
        Hit.term).toFinset.filter fun t => seen t = 0).card,
        j + (l.takeWhile fun h => decide (sub32 h.stop start ≤ maxChars)).length) := by
  induction l generalizing seen distinct j with
  | nil => rfl
  | cons h rest ih =>
      rw [extend]
      split
      · rename_i fits
        rw [ih, List.takeWhile_cons_of_pos (by simpa using fits), List.map_cons, List.toFinset_cons,
          card_fresh, List.length_cons]
        refine Prod.ext ?_ ?_
        · dsimp only
          split <;> omega
        · dsimp only
          omega
      · rename_i beyond
        rw [List.takeWhile_cons_of_neg (by simpa using beyond)]
        rfl

/-- How far a test reaches: to the first element that fails it. -/
theorem takeWhile_reach {α : Type} (test : α → Bool) (fallback : α) (l : List α) :
    (l.takeWhile test).length ≤ l.length ∧
      (∀ k < (l.takeWhile test).length, test (l.getD k fallback) = true) ∧
      ((l.takeWhile test).length < l.length →
        test (l.getD (l.takeWhile test).length fallback) = false) := by
  induction l with
  | nil => exact ⟨le_rfl, fun k less => absurd less (Nat.not_lt_zero k), fun less => absurd less (Nat.not_lt_zero 0)⟩
  | cons a rest ih =>
      obtain ⟨most, passes, fails⟩ := ih
      cases here : test a with
      | true =>
          rw [List.takeWhile_cons_of_pos here, List.length_cons, List.length_cons]
          refine ⟨by omega, fun k less => ?_, fun less => ?_⟩
          · cases k with
            | zero => exact here
            | succ k => exact passes k (by omega)
          · exact fails (by omega)
      | false =>
          rw [List.takeWhile_cons_of_neg (by simp [here])]
          exact ⟨Nat.zero_le _, fun k less => absurd less (Nat.not_lt_zero k), fun _ => here⟩

/-- The number of hits from hit `i` on that fit. -/
def reach (hits : List Hit) (maxChars i : Nat) : Nat :=
  ((hits.drop i).takeWhile fun h =>
    decide (sub32 h.stop (hitAt hits i).start ≤ maxChars)).length

theorem hitAt_drop (i k : Nat) : (hits.drop i).getD k ⟨0, 0, 0⟩ = hitAt hits (i + k) := by
  rw [hitAt, List.getD_eq_getElem?_getD, List.getElem?_drop, List.getD_eq_getElem?_getD]

theorem sub32_eq {a b : Nat} (le : b ≤ a) (fits : a < 2 ^ 32) : sub32 a b = a - b := by
  rw [sub32, u32, Nat.mod_eq_of_lt (show b < 2 ^ 32 by omega),
    show a + (2 ^ 32 - b) = a - b + 2 ^ 32 by omega, Nat.add_mod_right, Nat.mod_eq_of_lt (by omega)]

theorem reach_le {i : Nat} (maxChars : Nat) (inside : i < hits.length) :
    i + reach hits maxChars i ≤ hits.length := by
  have most := (takeWhile_reach
    (fun h => decide (sub32 h.stop (hitAt hits i).start ≤ maxChars)) ⟨0, 0, 0⟩ (hits.drop i)).1
  rw [List.length_drop] at most
  change reach hits maxChars i ≤ _ at most
  omega

/-- **The window at a hit**: as far as the hits fit, or the hit alone. -/
theorem windowAt_eq {i : Nat} (maxChars : Nat) (inside : i < hits.length) : windowAt hits maxChars i =
    (distinctIn hits i (i + reach hits maxChars i),
      if reach hits maxChars i = 0 then i + 1 else i + reach hits maxChars i) := by
  have taken : (hits.drop i).takeWhile (fun h =>
      decide (sub32 h.stop (hitAt hits i).start ≤ maxChars)) =
      (hits.drop i).take (reach hits maxChars i) :=
    List.prefix_iff_eq_take.mp (List.takeWhile_prefix _)
  have most := reach_le maxChars inside
  unfold windowAt
  rw [extend_eq]
  dsimp only
  rw [taken, List.length_take, Finset.filter_true_of_mem (fun _ _ => rfl), distinctIn,
    Nat.add_sub_cancel_left, Nat.zero_add, List.length_drop, Nat.min_eq_left (by omega)]
  refine Prod.ext rfl ?_
  dsimp only
  split_ifs <;> omega

theorem distinctIn_mono {i j j' : Nat} (le : j ≤ j') : distinctIn hits i j ≤ distinctIn hits i j' := by
  apply Finset.card_le_card
  intro t mem
  rw [List.mem_toFinset] at mem ⊢
  obtain ⟨h, held, rfl⟩ := List.mem_map.mp mem
  exact List.mem_map_of_mem ((List.take_prefix_take_left (by omega)).subset held)

theorem distinctIn_pos {i j : Nat} (less : i < j) (inside : i < hits.length) :
    0 < distinctIn hits i j := by
  apply Finset.card_pos.mpr
  refine ⟨(hitAt hits i).term, ?_⟩
  rw [List.mem_toFinset]
  apply List.mem_map_of_mem
  rw [hitAt, List.getD_eq_getElem _ _ inside, List.drop_eq_getElem_cons inside,
    show j - i = (j - i - 1) + 1 by omega, List.take_succ_cons]
  exact List.mem_cons_self

theorem distinctIn_self (i : Nat) : distinctIn hits i i = 0 := by
  simp [distinctIn]

/-! ### The loop over the hits -/

theorem Score.lt_iff {a b : Score} : Score.lt a b = true ↔
    a.1 < b.1 ∨ a.1 = b.1 ∧ (a.2.1 < b.2.1 ∨ a.2.1 = b.2.1 ∧ a.2.2 < b.2.2) := by
  simp [Score.lt]

theorem scoreAt_fst (hits : List Hit) (maxChars i : Nat) :
    (scoreAt hits maxChars i).1 = ((windowAt hits maxChars i).1 : Int) := rfl

/-- **The first of the greatest scores** is what the loop keeps. -/
theorem bestStep_foldl (hits : List Hit) (maxChars n : Nat) (some : 0 < n) :
    ∃ i < n, (List.range n).foldl (bestStep hits maxChars) ((-1, -1, 0), 0, 1) =
        (scoreAt hits maxChars i, i, (windowAt hits maxChars i).2) ∧
      ∀ k < n, Score.lt (scoreAt hits maxChars i) (scoreAt hits maxChars k) = false ∧
        (k < i → Score.lt (scoreAt hits maxChars k) (scoreAt hits maxChars i) = true) := by
  induction n with
  | zero => exact absurd some (Nat.lt_irrefl 0)
  | succ n ih =>
      rw [List.range_succ, List.foldl_append, List.foldl_cons, List.foldl_nil]
      rcases Nat.eq_zero_or_pos n with rfl | more
      · have first : Score.lt (-1, -1, 0) (scoreAt hits maxChars 0) = true := by
          rw [Score.lt_iff, scoreAt_fst]
          omega
        refine ⟨0, Nat.one_pos, ?_, fun k less => ⟨?_, fun less => absurd less (Nat.not_lt_zero k)⟩⟩
        · rw [List.range_zero, List.foldl_nil, bestStep, if_pos first]
        · obtain rfl : k = 0 := by omega
          rw [Bool.eq_false_iff, Ne, Score.lt_iff]
          omega
      · obtain ⟨i, less, is, greatest⟩ := ih more
        rw [is, bestStep]
        dsimp only
        split
        · rename_i better
          rw [Score.lt_iff] at better
          refine ⟨n, Nat.lt_add_one n, rfl, fun k upTo => ?_⟩
          rw [Bool.eq_false_iff, Ne, Score.lt_iff, Score.lt_iff]
          rcases Nat.lt_succ_iff_lt_or_eq.mp upTo with earlier | rfl
          · have before := (greatest k earlier).1
            rw [Bool.eq_false_iff, Ne, Score.lt_iff] at before
            constructor
            · omega
            · omega
          · omega
        · rename_i worse
          refine ⟨i, by omega, rfl, fun k upTo => ?_⟩
          rcases Nat.lt_succ_iff_lt_or_eq.mp upTo with earlier | rfl
          · exact greatest k earlier
          · exact ⟨by simpa using worse, fun less' => by omega⟩

theorem scoreAt_distinct {i : Nat} (maxChars : Nat) (inside : i < hits.length) :
    (scoreAt hits maxChars i).1 = (distinctIn hits i (i + reach hits maxChars i) : Int) := by
  rw [scoreAt_fst, windowAt_eq maxChars inside]

section Spans

variable {maxChars : Nat} (placed : Placed text hits) (short : text.length < 2 ^ 32)

include placed short

theorem span_eq {i j : Nat} (less : i < j) (inside : j ≤ hits.length) :
    sub32 (hitAt hits (j - 1)).stop (hitAt hits i).start =
      (hitAt hits (j - 1)).stop - (hitAt hits i).start := by
  have := placed.stop_le (show j - 1 < hits.length by omega)
  have := placed.start_lt (show i < hits.length by omega)
  have := placed.stop_mono (show i ≤ j - 1 by omega) (by omega)
  exact sub32_eq (by omega) (by omega)

/-- **What fits** is what `extend` reaches. -/
theorem fits_iff {i j : Nat} (below : i < hits.length) :
    Fits hits maxChars i j ↔ i < j ∧ j ≤ i + reach hits maxChars i := by
  obtain ⟨most, passes, fails⟩ := takeWhile_reach
    (fun h => decide (sub32 h.stop (hitAt hits i).start ≤ maxChars)) ⟨0, 0, 0⟩ (hits.drop i)
  rw [List.length_drop] at most fails
  change reach hits maxChars i ≤ _ at most
  change reach hits maxChars i < _ → _ at fails
  constructor
  · rintro ⟨less, inside, span⟩
    refine ⟨less, ?_⟩
    by_contra beyond
    have failed := fails (by omega)
    change decide (sub32 ((hits.drop i).getD (reach hits maxChars i) ⟨0, 0, 0⟩).stop _ ≤ _) = _
      at failed
    rw [hitAt_drop, decide_eq_false_iff_not] at failed
    have mono := placed.stop_mono (show i + reach hits maxChars i ≤ j - 1 by omega) (by omega)
    have eq := span_eq placed short (show i < i + reach hits maxChars i + 1 by omega) (by omega)
    rw [Nat.add_sub_cancel] at eq
    rw [eq] at failed
    omega
  · rintro ⟨less, upTo⟩
    have passed := passes (j - 1 - i) (by change j - 1 - i < reach hits maxChars i; omega)
    rw [hitAt_drop, decide_eq_true_eq, show i + (j - 1 - i) = j - 1 by omega,
      span_eq placed short less (by omega)] at passed
    exact ⟨less, by omega, passed⟩

end Spans

section Chosen

variable {maxChars : Nat} (placed : Placed text hits) (short : text.length < 2 ^ 31)

include placed short

/-- The score of a window whose hits fit. -/
theorem scoreAt_eq {i : Nat} (inside : i < hits.length) (some : 0 < reach hits maxChars i) :
    scoreAt hits maxChars i = ((distinctIn hits i (i + reach hits maxChars i) : Int),
      (reach hits maxChars i : Int),
      -(((hitAt hits (i + reach hits maxChars i - 1)).stop - (hitAt hits i).start : Nat) : Int)) := by
  have most := reach_le maxChars inside
  have count := placed.length_le
  have stop := placed.stop_le (show i + reach hits maxChars i - 1 < hits.length by omega)
  unfold scoreAt
  rw [windowAt_eq maxChars inside, if_neg (by omega)]
  dsimp only
  rw [span_eq placed (by omega) (by omega) most, Nat.add_sub_cancel_left, int32_of_lt (by omega),
    int32_of_lt (by omega)]

/-- **The chosen window**: a best one, or where no hit fits some hit alone. -/
theorem chosen (full : hits ≠ []) :
    (bestWindow hits maxChars).1 < hits.length ∧
      (Best hits maxChars (bestWindow hits maxChars).1 (bestWindow hits maxChars).2 ∨
        ((bestWindow hits maxChars).2 = (bestWindow hits maxChars).1 + 1 ∧
          ∀ i j, ¬ Fits hits maxChars i j)) := by
  obtain ⟨i, inside, is, greatest⟩ :=
    bestStep_foldl hits maxChars hits.length (List.length_pos_of_ne_nil full)
  unfold bestWindow
  rw [is, windowAt_eq maxChars inside]
  dsimp only
  refine ⟨inside, ?_⟩
  have most := reach_le maxChars inside
  by_cases none : reach hits maxChars i = 0
  · rw [if_pos none]
    refine .inr ⟨rfl, fun i' j' fits => ?_⟩
    have inside' : i' < hits.length := lt_of_lt_of_le fits.1 fits.2.1
    obtain ⟨less, upTo⟩ := (fits_iff placed (by omega) inside').mp fits
    have positive := distinctIn_pos (show i' < i' + reach hits maxChars i' by omega) inside'
    have worse := (greatest i' inside').1
    rw [Bool.eq_false_iff, Ne, Score.lt_iff, scoreAt_distinct maxChars inside,
      scoreAt_distinct maxChars inside', none, Nat.add_zero, distinctIn_self] at worse
    omega
  · rw [if_neg none]
    have some : 0 < reach hits maxChars i := by omega
    refine .inl ⟨(fits_iff placed (by omega) inside).mpr ⟨by omega, le_rfl⟩, fun i' j' fits => ?_⟩
    have inside' : i' < hits.length := lt_of_lt_of_le fits.1 fits.2.1
    obtain ⟨less, upTo⟩ := (fits_iff placed (by omega) inside').mp fits
    have some' : 0 < reach hits maxChars i' := by omega
    obtain ⟨worse, strictly⟩ := greatest i' inside'
    rw [Bool.eq_false_iff, Ne, Score.lt_iff] at worse
    rw [Score.lt_iff] at strictly
    rw [scoreAt_eq placed short inside some, scoreAt_eq placed short inside' some'] at worse strictly
    dsimp only at worse strictly
    have fewer := @distinctIn_mono hits i' j' (i' + reach hits maxChars i') upTo
    have later : ¬ i' < i → (hitAt hits i).start ≤ (hitAt hits i').start :=
      fun notBefore => placed.start_mono (not_lt.mp notBefore) inside'
    unfold NoBetter
    rcases Nat.eq_or_lt_of_le upTo with rfl | shorter
    · rw [Nat.add_sub_cancel_left, Nat.add_sub_cancel_left]
      by_cases before : i' < i
      · have := strictly before
        omega
      · have := later before
        omega
    · rw [Nat.add_sub_cancel_left]
      omega

omit short in
/-- Two best windows are one. -/
theorem Best.unique {i j i' j' : Nat} (best : Best hits maxChars i j)
    (best' : Best hits maxChars i' j') : i = i' ∧ j = j' := by
  have le := best.2 i' j' best'.1
  have ge := best'.2 i j best.1
  obtain ⟨less, inside, -⟩ := best.1
  obtain ⟨less', inside', -⟩ := best'.1
  unfold NoBetter at le ge
  have start : (hitAt hits i).start = (hitAt hits i').start := by omega
  have same : i = i' := by
    by_contra different
    rcases Nat.lt_or_gt_of_ne different with before | after
    · have := placed.before before (show i' < hits.length by omega)
      have := placed.start_lt (show i < hits.length by omega)
      omega
    · have := placed.before after (show i < hits.length by omega)
      have := placed.start_lt (show i' < hits.length by omega)
      omega
  exact ⟨same, by omega⟩

end Chosen

/-! ## The edges -/

section Core

variable {maxChars : Nat} (placed : Placed text hits) (short : text.length < 2 ^ 31)
  (longer : maxChars < text.length)

include placed short longer

/-- **What the window is to hold**: nothing, the hits of the best window, or the first
`maxChars` bytes of a hit that is longer. -/
theorem core_cases : (hits = [] ∧ core hits maxChars text.length = (0, 0)) ∨
    (∃ i j, Best hits maxChars i j ∧ core hits maxChars text.length =
      ((hitAt hits i).start, (hitAt hits (j - 1)).stop)) ∨
    ∃ i < hits.length, (∀ i' j', ¬ Fits hits maxChars i' j') ∧
      core hits maxChars text.length = ((hitAt hits i).start, (hitAt hits i).start + maxChars) ∧
      (hitAt hits i).start + maxChars < (hitAt hits i).stop := by
  by_cases none : hits = []
  · exact .inl ⟨none, if_pos none⟩
  · obtain ⟨inside, best | ⟨alone, no⟩⟩ := @chosen text hits maxChars placed short none
    · refine .inr (.inl ⟨_, _, best, ?_⟩)
      obtain ⟨less, upTo, span⟩ := best.1
      have stop := placed.stop_le (show (bestWindow hits maxChars).2 - 1 < hits.length by omega)
      have mono := placed.stop_mono
        (show (bestWindow hits maxChars).1 ≤ (bestWindow hits maxChars).2 - 1 by omega) (by omega)
      have start := placed.start_lt inside
      rw [core, if_neg none]
      dsimp only
      rw [Nat.max_eq_left (by omega), Nat.min_eq_right (by omega), sub32_eq (by omega) (by omega),
        if_neg (by omega)]
    · refine .inr (.inr ⟨_, inside, no, ?_⟩)
      have stop := placed.stop_le inside
      have start := placed.start_lt inside
      have wide : ¬ (hitAt hits (bestWindow hits maxChars).1).stop -
          (hitAt hits (bestWindow hits maxChars).1).start ≤ maxChars := fun fits =>
        no (bestWindow hits maxChars).1 ((bestWindow hits maxChars).1 + 1)
          ⟨Nat.lt_add_one _, inside, fits⟩
      refine ⟨?_, by omega⟩
      rw [core, if_neg none]
      dsimp only
      rw [alone, Nat.add_sub_cancel, Nat.max_eq_left (by omega), Nat.min_eq_right (by omega),
        sub32_eq (by omega) (by omega), if_pos (by omega), u32, Nat.mod_eq_of_lt (by omega)]

end Core

/-- The right edge, before it is cut to the text, as the source adds it up. -/
def widened (maxChars s e : Nat) : Nat :=
  e + (maxChars - (e - s) - min s ((maxChars - (e - s)) / 2))

/-- **Widening** gives `maxChars` bytes around the place, where the sum does not wrap. -/
theorem widen_spec {maxChars len s e : Nat} (ordered : s ≤ e) (within : e ≤ len)
    (fits : e - s ≤ maxChars) (longer : maxChars < len) (short : len < 2 ^ 32)
    (room : widened maxChars s e < 2 ^ 32) :
    (widen maxChars len s e).1 ≤ s ∧ e ≤ (widen maxChars len s e).2 ∧
      (widen maxChars len s e).2 ≤ len ∧
      (widen maxChars len s e).1 + maxChars = (widen maxChars len s e).2 ∧
      (s = 0 → e = 0 → widen maxChars len s e = (0, maxChars)) := by
  have span : sub32 e s = e - s := sub32_eq ordered (by omega)
  have slack : sub32 maxChars (e - s) = maxChars - (e - s) := sub32_eq fits (by omega)
  unfold widened at room
  unfold widen
  dsimp only
  rw [span, slack]
  generalize growth : min s ((maxChars - (e - s)) / 2) = growLeft at room
  have grown : sub32 s growLeft = s - growLeft := sub32_eq (by omega) (by omega)
  have rest : sub32 (maxChars - (e - s)) growLeft = maxChars - (e - s) - growLeft :=
    sub32_eq (by omega) (by omega)
  have sum : u32 (e + (maxChars - (e - s) - growLeft)) = e + (maxChars - (e - s) - growLeft) :=
    Nat.mod_eq_of_lt (by omega)
  rw [grown, rest, sum]
  generalize edge : min len (e + (maxChars - (e - s) - growLeft)) = right
  have width : sub32 right (s - growLeft) = right - (s - growLeft) :=
    sub32_eq (by omega) (by omega)
  rw [width]
  split
  · have moved : sub32 right maxChars = right - maxChars := sub32_eq (by omega) (by omega)
    rw [moved]
    split
    · refine ⟨by omega, by omega, by omega, by omega, fun _ _ => ?_⟩
      omega
    · refine ⟨by omega, by omega, by omega, by omega, fun _ _ => ?_⟩
      omega
  · refine ⟨by omega, by omega, by omega, by omega, fun start stop => ?_⟩
    refine Prod.ext ?_ ?_
    · dsimp only
      omega
    · dsimp only
      omega

/-! ### Places of the text -/

theorem byteAt_eq {i : Nat} (inside : i < text.length) : text[i]? = some (byteAt text i) := by
  rw [byteAt, List.getD_eq_getElem _ _ inside, List.getElem?_eq_getElem inside]

theorem boundary_of_not_cont (wellFormed : Utf8.WellFormed text) {i : Nat}
    (inside : i ≤ text.length) (fails : (decide (i < text.length) && contAt text i) = false) :
    Utf8.Boundary text i := by
  rw [Utf8.boundary_iff wellFormed]
  rcases Nat.eq_or_lt_of_le inside with last | before
  · exact .inl last
  · refine .inr ⟨_, byteAt_eq before, ?_⟩
    simpa [before, contAt] using fails

theorem not_cont_of_boundary (wellFormed : Utf8.WellFormed text) {i : Nat}
    (boundary : Utf8.Boundary text i) : (decide (i < text.length) && contAt text i) = false := by
  rcases (Utf8.boundary_iff wellFormed).mp boundary with rfl | ⟨b, found, start⟩
  · simp
  · have inside := (List.getElem?_eq_some_iff.mp found).1
    rw [byteAt_eq inside, Option.some.injEq] at found
    rw [contAt, found, start, Bool.and_false]

theorem space_ascii {c : UInt8} (space : isSpace c = true) : c < 0x80 := by
  unfold isSpace at space
  simp only [Bool.or_eq_true, decide_eq_true_eq] at space
  rcases space with ((rfl | rfl) | rfl) | rfl <;> decide

/-- Whitespace is a character of its own. -/
theorem boundary_of_space (wellFormed : Utf8.WellFormed text) {i : Nat} (inside : i < text.length)
    (space : spaceAt text i = true) : Utf8.Boundary text i ∧ Utf8.Boundary text (i + 1) :=
  Utf8.boundary_of_ascii wellFormed (byteAt_eq inside) (space_ascii space)

/-- **The left edge** moves up to a character, not past the place that is held. -/
theorem pullLeft_spec (wellFormed : Utf8.WellFormed text) {s left : Nat} (held : left ≤ s)
    (within : s ≤ text.length) (boundary : Utf8.Boundary text s) :
    left ≤ pullLeft text text.length s left ∧ pullLeft text text.length s left ≤ s ∧
      Utf8.Boundary text (pullLeft text text.length s left) := by
  unfold pullLeft
  split
  · obtain ⟨low, -, before⟩ := @Scan.up_spec
      (fun p => decide (p < s) && !spaceAt text (p - 1)) text.length left s
      (fun q holds => by simp at holds; omega) (by omega)
    have upTo : Scan.up (fun p => decide (p < s) && !spaceAt text (p - 1)) text.length left ≤ s := by
      by_contra beyond
      have := before s held (not_le.mp beyond)
      simp at this
    dsimp only
    generalize Scan.up (fun p => decide (p < s) && !spaceAt text (p - 1)) text.length left = p at *
    -- the place before it is moved to a character: `p` or the old edge
    have start : left ≤ (if p < s ∨ p = s ∧ (s = 0 ∨ spaceAt text (s - 1) = true) then p else left) ∧
        (if p < s ∨ p = s ∧ (s = 0 ∨ spaceAt text (s - 1) = true) then p else left) ≤ s := by
      split
      · exact ⟨low, upTo⟩
      · exact ⟨le_rfl, held⟩
    generalize (if p < s ∨ p = s ∧ (s = 0 ∨ spaceAt text (s - 1) = true) then p else left) = q at *
    obtain ⟨up, stops, inside⟩ := @Scan.up_spec
      (fun i => decide (i < text.length) && contAt text i) text.length q text.length
      (fun i holds => by simp at holds; omega) (by omega)
    have atMost : Scan.up (fun i => decide (i < text.length) && contAt text i) text.length q ≤ s := by
      by_contra beyond
      have := inside s start.2 (not_le.mp beyond)
      rw [not_cont_of_boundary wellFormed boundary] at this
      exact absurd this (by decide)
    exact ⟨start.1.trans up, atMost,
      boundary_of_not_cont wellFormed (atMost.trans within) stops⟩
  · have zero : left = 0 := by omega
    exact ⟨le_rfl, held, zero ▸ Utf8.boundary_zero wellFormed⟩

/-- **The right edge** moves down to a character, not past one of the place that is held. -/
theorem pullRight_spec (wellFormed : Utf8.WellFormed text) {e left right : Nat}
    (held : e ≤ right) (within : right ≤ text.length) (ordered : left ≤ e)
    (boundary : Utf8.Boundary text left) :
    pullRight text text.length e left right ≤ right ∧
      Utf8.Boundary text (pullRight text text.length e left right) ∧
      ∀ b, Utf8.Boundary text b → left ≤ b → b ≤ e →
        b ≤ pullRight text text.length e left right := by
  unfold pullRight
  split
  · rename_i inside
    obtain ⟨high, -, after⟩ := @Scan.down_spec
      (fun p => decide (e < p) && !spaceAt text p) text.length right e
      (fun q holds => by simp at holds; omega) (by omega)
    have down : e ≤ Scan.down (fun p => decide (e < p) && !spaceAt text p) text.length right := by
      by_contra beyond
      have := after e (not_le.mp beyond) held
      simp at this
    dsimp only
    generalize Scan.down (fun p => decide (e < p) && !spaceAt text p) text.length right = p at *
    have start : e ≤ (if e < p ∨ p = e ∧ (e = text.length ∨ spaceAt text e = true) then p else right) ∧
        (if e < p ∨ p = e ∧ (e = text.length ∨ spaceAt text e = true) then p else right) ≤ right := by
      split
      · exact ⟨down, high⟩
      · exact ⟨held, le_rfl⟩
    generalize (if e < p ∨ p = e ∧ (e = text.length ∨ spaceAt text e = true) then p else right) = q
      at *
    obtain ⟨upTo, stops, above⟩ := @Scan.down_spec
      (fun i => decide (left < i) && decide (i < text.length) && contAt text i) text.length q left
      (fun i holds => by simp at holds; omega) (by omega)
    have least : ∀ b, Utf8.Boundary text b → left ≤ b → b ≤ e → b ≤ Scan.down
        (fun i => decide (left < i) && decide (i < text.length) && contAt text i)
        text.length q := by
      intro b isBoundary _ le
      by_contra beyond
      have := above b (not_le.mp beyond) (le.trans start.1)
      rw [Bool.and_assoc, not_cont_of_boundary wellFormed isBoundary, Bool.and_false] at this
      exact absurd this (by decide)
    refine ⟨upTo.trans start.2, ?_, least⟩
    have low := least left boundary le_rfl ordered
    generalize Scan.down (fun i => decide (left < i) && decide (i < text.length) && contAt text i)
      text.length q = r at *
    rcases Nat.eq_or_lt_of_le low with rfl | more
    · exact boundary
    · apply boundary_of_not_cont wellFormed (by omega)
      simpa [more] using stops
  · have last : right = text.length := by omega
    exact ⟨le_rfl, last ▸ Utf8.boundary_length wellFormed, fun b _ _ le => le.trans held⟩

/-- **Trimming** keeps every byte that is no whitespace. -/
theorem trim_spec (wellFormed : Utf8.WellFormed text) {len left right : Nat} (ordered : left ≤ right)
    (inside : right ≤ len) (within : len ≤ text.length) (boundary : Utf8.Boundary text left)
    (boundary' : Utf8.Boundary text right) :
    left ≤ (trim text len left right).1 ∧
      (trim text len left right).1 ≤ (trim text len left right).2 ∧
      (trim text len left right).2 ≤ right ∧
      Utf8.Boundary text (trim text len left right).1 ∧
      Utf8.Boundary text (trim text len left right).2 ∧
      ((trim text len left right).1 < (trim text len left right).2 →
        spaceAt text (trim text len left right).1 = false ∧
        spaceAt text ((trim text len left right).2 - 1) = false) ∧
      ∀ i, left ≤ i → i < right → spaceAt text i = false →
        (trim text len left right).1 ≤ i ∧ i < (trim text len left right).2 := by
  unfold trim
  dsimp only
  obtain ⟨low, stops, before⟩ := @Scan.up_spec
    (fun q => decide (q < right) && spaceAt text q) len left right
    (fun q holds => by simp at holds; omega) (by omega)
  have upTo : Scan.up (fun q => decide (q < right) && spaceAt text q) len left ≤ right := by
    by_contra beyond
    have := before right ordered (not_le.mp beyond)
    simp at this
  generalize Scan.up (fun q => decide (q < right) && spaceAt text q) len left = l at *
  obtain ⟨high, stops', after⟩ := @Scan.down_spec
    (fun q => decide (l < q) && spaceAt text (q - 1)) len right l
    (fun q holds => by simp at holds; omega) (by omega)
  have apart : l ≤ Scan.down (fun q => decide (l < q) && spaceAt text (q - 1)) len right := by
    by_contra beyond
    have := after l (not_le.mp beyond) upTo
    simp at this
  generalize Scan.down (fun q => decide (l < q) && spaceAt text (q - 1)) len right = r at *
  have leftBoundary : Utf8.Boundary text l := by
    rcases Nat.eq_or_lt_of_le low with rfl | moved
    · exact boundary
    · have space := before (l - 1) (by omega) (by omega)
      simp only [Bool.and_eq_true] at space
      have := (boundary_of_space wellFormed (show l - 1 < text.length by omega) space.2).2
      rwa [Nat.sub_add_cancel (by omega)] at this
  have rightBoundary : Utf8.Boundary text r := by
    rcases Nat.eq_or_lt_of_le high with rfl | moved
    · exact boundary'
    · have space := after (r + 1) (by omega) (by omega)
      simp only [Bool.and_eq_true, Nat.add_sub_cancel] at space
      exact (boundary_of_space wellFormed (by omega) space.2).1
  refine ⟨low, apart, high, leftBoundary, rightBoundary, fun full => ?_, fun i le less plain => ?_⟩
  · constructor
    · simpa [show l < right by omega] using stops
    · simpa [full] using stops'
  · have above : l ≤ i := by
      by_contra beyond
      have := before i le (not_le.mp beyond)
      rw [plain, Bool.and_false] at this
      exact absurd this (by decide)
    refine ⟨above, ?_⟩
    by_contra beyond
    have := after (i + 1) (by omega) (by omega)
    rw [Nat.add_sub_cancel, plain, Bool.and_false] at this
    exact absurd this (by decide)

/-! ## The window -/

/-- What holds of the edges of a window. -/
structure Edged (text : Bytes) (maxChars l r : Nat) : Prop where
  ordered : l ≤ r
  within : r ≤ text.length
  limit : r - l ≤ maxChars
  left : Utf8.Boundary text l
  right : Utf8.Boundary text r
  trimmed : l < r → spaceAt text l = false ∧ spaceAt text (r - 1) = false

section Window

/-- **All movements of the edges together**: they keep every byte of the place held that is
no whitespace and lies before one of its characters. -/
theorem edges_of_core {maxChars : Nat} (wellFormed : Utf8.WellFormed text)
    (short : text.length < 2 ^ 32) (longer : maxChars < text.length) {s e : Nat}
    (is : core hits maxChars text.length = (s, e))
    (ordered : s ≤ e) (within : e ≤ text.length) (fits : e - s ≤ maxChars)
    (room : widened maxChars s e < 2 ^ 32) (boundary : Utf8.Boundary text s) :
    Edged text maxChars (edges text hits maxChars text.length).1
      (edges text hits maxChars text.length).2 ∧
    ∀ b, Utf8.Boundary text b → b ≤ e → ∀ i, s ≤ i → i < b → spaceAt text i = false →
      (edges text hits maxChars text.length).1 ≤ i ∧
        i < (edges text hits maxChars text.length).2 := by
  obtain ⟨low, high, inside, width, -⟩ := widen_spec ordered within fits longer short room
  unfold edges
  rw [is]
  dsimp only
  generalize widen maxChars text.length s e = w at *
  obtain ⟨w1, w2⟩ := w
  dsimp only at *
  obtain ⟨up, upTo, leftBoundary⟩ := pullLeft_spec wellFormed low (ordered.trans within) boundary
  obtain ⟨down, rightBoundary, least⟩ :=
    pullRight_spec wellFormed high inside (upTo.trans ordered) leftBoundary
  have across := least _ leftBoundary le_rfl (upTo.trans ordered)
  obtain ⟨lower, apart, upper, boundaryL, boundaryR, trimmed, kept⟩ :=
    trim_spec wellFormed across (down.trans inside) le_rfl leftBoundary rightBoundary
  refine ⟨⟨apart, upper.trans (down.trans inside), by omega, boundaryL, boundaryR, trimmed⟩, ?_⟩
  intro b isBoundary le i after before plain
  have reaches := least b isBoundary (by omega) le
  exact kept i (by omega) (by omega) plain

theorem widened_lt {maxChars s e : Nat} (within : e ≤ text.length) (short : text.length < 2 ^ 31)
    (longer : maxChars < text.length) : widened maxChars s e < 2 ^ 32 := by
  unfold widened
  omega

variable {maxChars : Nat} (wellFormed : Utf8.WellFormed text) (short : text.length < 2 ^ 31)
  (longer : maxChars < text.length)

include wellFormed short longer

/-- **The edges of a window**, whatever the hits. -/
theorem edges_spec (placed : Placed text hits) (positive : 0 < maxChars) :
    Edged text maxChars (edges text hits maxChars text.length).1
      (edges text hits maxChars text.length).2 ∧
    (∀ i j, Best hits maxChars i j →
      (edges text hits maxChars text.length).1 ≤ (hitAt hits i).start ∧
        (hitAt hits (j - 1)).stop ≤ (edges text hits maxChars text.length).2) := by
  rcases core_cases placed short longer with ⟨none, is⟩ | ⟨i, j, best, is⟩ | ⟨i, inside, no, is, long⟩
  · obtain ⟨edged, -⟩ := edges_of_core wellFormed (by omega) longer is le_rfl (Nat.zero_le _)
      (Nat.zero_le _) (widened_lt (Nat.zero_le _) short longer) (Utf8.boundary_zero wellFormed)
    refine ⟨edged, fun i j best => ?_⟩
    have := best.1.1
    have := best.1.2.1
    rw [none, List.length_nil] at this
    omega
  · obtain ⟨less, upTo, span⟩ := best.1
    have inside : i < hits.length := by omega
    have inside' : j - 1 < hits.length := by omega
    have stop := placed.stop_le inside'
    have start := placed.start_lt inside
    have start' := placed.start_lt inside'
    have mono := placed.stop_mono (show i ≤ j - 1 by omega) inside'
    have mono' := placed.start_mono (show i ≤ j - 1 by omega) inside'
    have boundary := placed.boundary _ (hitAt_mem inside)
    have boundary' := placed.boundary _ (hitAt_mem inside')
    obtain ⟨edged, kept⟩ := edges_of_core wellFormed (by omega) longer is (by omega) stop span
      (widened_lt stop short longer) boundary.1
    have first := kept _ boundary'.2 le_rfl (hitAt hits i).start le_rfl (by omega)
      (placed.unspaced _ (hitAt_mem inside) _ le_rfl start)
    have last := kept _ boundary'.2 le_rfl ((hitAt hits (j - 1)).stop - 1) (by omega) (by omega)
      (placed.unspaced _ (hitAt_mem inside') _ (by omega) (by omega))
    refine ⟨edged, fun i' j' best' => ?_⟩
    obtain ⟨rfl, rfl⟩ := best.unique placed best'
    omega
  · have stop := placed.stop_le inside
    have boundary := placed.boundary _ (hitAt_mem inside)
    obtain ⟨edged, -⟩ := edges_of_core wellFormed (by omega) longer is (by omega) (by omega)
      (by omega) (widened_lt (by omega) short longer) boundary.1
    exact ⟨edged, fun i' j' best => absurd best.1 (no i' j')⟩

end Window

/-- **What a snippet guarantees**, over the hits of the text. -/
structure Guarantees (text : Bytes) (hits : List Hit) (maxChars : Nat) (sn : Snippet) : Prop where
  substr : sn.window = (text.drop sn.windowStart).take sn.window.length
  inside : sn.windowStart + sn.window.length ≤ text.length
  whole : maxChars = 0 ∨ text.length ≤ maxChars → sn.window = text ∧ sn.isSnippet = false
  limit : maxChars ≠ 0 → maxChars < text.length → sn.isSnippet = true ∧
    sn.window.length ≤ maxChars ∧ Utf8.Boundary text sn.windowStart ∧
    Utf8.Boundary text (sn.windowStart + sn.window.length) ∧
    (∀ c, sn.window.head? = some c → isSpace c = false) ∧
    ∀ c, sn.window.getLast? = some c → isSpace c = false
  best : maxChars ≠ 0 → maxChars < text.length → ∀ i j, Best hits maxChars i j →
    ∀ k, i ≤ k → k < j → sn.windowStart ≤ (hitAt hits k).start ∧
      (hitAt hits k).stop ≤ sn.windowStart + sn.window.length
  exists_best : (∃ i j, Fits hits maxChars i j) → ∃ i j, Best hits maxChars i j
  highlights : sn.highlights = (hits.filter fun h => decide (sn.windowStart ≤ h.start) &&
      decide (h.stop ≤ sn.windowStart + sn.window.length)).map
    fun h => ⟨h.start - sn.windowStart, h.stop - sn.windowStart⟩
  ordered : sn.highlights.Pairwise fun a b => a.stop ≤ b.start
  inWindow : ∀ h ∈ sn.highlights, h.start < h.stop ∧ h.stop ≤ sn.window.length

/-- The highlights of a window. -/
theorem highlights_spec (placed : Placed text hits) (short : text.length < 2 ^ 31) {l r : Nat} :
    ((hits.filter fun h => decide (l ≤ h.start) && decide (h.stop ≤ r)).map
        fun h => (⟨sub32 h.start l, sub32 h.stop l⟩ : HighlightSpan)) =
      (hits.filter fun h => decide (l ≤ h.start) && decide (h.stop ≤ r)).map
        (fun h => ⟨h.start - l, h.stop - l⟩) ∧
    ((hits.filter fun h => decide (l ≤ h.start) && decide (h.stop ≤ r)).map
        (fun h => (⟨h.start - l, h.stop - l⟩ : HighlightSpan))).Pairwise
      (fun a b => a.stop ≤ b.start) ∧
    ∀ h ∈ (hits.filter fun h => decide (l ≤ h.start) && decide (h.stop ≤ r)).map
        (fun h => (⟨h.start - l, h.stop - l⟩ : HighlightSpan)),
      h.start < h.stop ∧ h.stop ≤ r - l := by
  have held : ∀ h ∈ hits.filter fun h => decide (l ≤ h.start) && decide (h.stop ≤ r),
      h ∈ hits ∧ l ≤ h.start ∧ h.stop ≤ r := by
    intro h mem
    simpa using mem
  refine ⟨List.map_congr_left fun h mem => ?_, ?_, fun x mem => ?_⟩
  · obtain ⟨here, low, high⟩ := held h mem
    have less := placed.nonempty h here
    have stop := Utf8.boundary_le (placed.boundary h here).2
    rw [sub32_eq low (by omega), sub32_eq (low.trans less.le) (by omega)]
  · rw [List.pairwise_map]
    refine (placed.ordered.filter _).imp fun le => ?_
    dsimp only
    omega
  · obtain ⟨h, here, rfl⟩ := List.mem_map.mp mem
    obtain ⟨here, low, high⟩ := held h here
    have less := placed.nonempty h here
    dsimp only
    omega

/-- The bytes between two edges. -/
theorem length_slice {l r : Nat} (within : r ≤ text.length) :
    ((text.drop l).take (r - l)).length = r - l := by
  rw [List.length_take, List.length_drop]
  omega

theorem head?_slice {l r : Nat} {c : UInt8} (within : r ≤ text.length)
    (first : ((text.drop l).take (r - l)).head? = some c) : l < r ∧ byteAt text l = c := by
  have full : l < r := by
    by_contra empty
    rw [Nat.sub_eq_zero_of_le (not_lt.mp empty), List.take_zero] at first
    exact nomatch first
  refine ⟨full, ?_⟩
  rw [List.head?_eq_getElem?, List.getElem?_take_of_lt (by omega), List.getElem?_drop,
    Nat.add_zero, byteAt_eq (by omega)] at first
  exact Option.some.inj first

theorem getLast?_slice {l r : Nat} {c : UInt8} (within : r ≤ text.length)
    (last : ((text.drop l).take (r - l)).getLast? = some c) :
    l < r ∧ byteAt text (r - 1) = c := by
  have full : l < r := by
    by_contra empty
    rw [Nat.sub_eq_zero_of_le (not_lt.mp empty), List.take_zero] at last
    exact nomatch last
  refine ⟨full, ?_⟩
  rw [List.getLast?_eq_getElem?, length_slice within, List.getElem?_take_of_lt (by omega),
    List.getElem?_drop, show l + (r - l - 1) = r - 1 by omega, byteAt_eq (by omega)] at last
  exact Option.some.inj last

/-- Where a hit fits there is a best window. -/
theorem exists_best {maxChars : Nat} (placed : Placed text hits) (short : text.length < 2 ^ 31)
    (fits : ∃ i j, Fits hits maxChars i j) : ∃ i j, Best hits maxChars i j := by
  obtain ⟨i, j, fit⟩ := fits
  have full : hits ≠ [] := by
    rintro rfl
    have less := fit.1
    have upTo := fit.2.1
    rw [List.length_nil] at upTo
    omega
  rcases (@chosen text hits maxChars placed short full).2 with best | ⟨-, none⟩
  · exact ⟨_, _, best⟩
  · exact absurd fit (none i j)

/-- A window between two edges, with the hits in it. -/
theorem guarantees_of_edges {maxChars l r : Nat} {cut : Bool} (placed : Placed text hits)
    (short : text.length < 2 ^ 31) (apart : l ≤ r) (within : r ≤ text.length)
    (whole : maxChars = 0 ∨ text.length ≤ maxChars → l = 0 ∧ r = text.length ∧ cut = false)
    (limit : maxChars ≠ 0 → maxChars < text.length → cut = true ∧ Edged text maxChars l r ∧
      ∀ i j, Best hits maxChars i j → l ≤ (hitAt hits i).start ∧ (hitAt hits (j - 1)).stop ≤ r) :
    Guarantees text hits maxChars
      { window := (text.drop l).take (sub32 r l)
        highlights := (hits.filter fun h => decide (l ≤ h.start) && decide (h.stop ≤ r)).map
          fun h => ⟨sub32 h.start l, sub32 h.stop l⟩
        isSnippet := cut
        windowStart := l } := by
  obtain ⟨shifted, sorted, inWindow⟩ := @highlights_spec text hits placed short l r
  have length := @length_slice text l r within
  have stop : l + (r - l) = r := by omega
  rw [sub32_eq apart (by omega), shifted]
  refine ⟨?_, ?_, fun all => ?_, fun some longer => ?_, fun some longer i j isBest k atLeast before => ?_,
    exists_best placed short, ?_, sorted, ?_⟩
  · dsimp only
    rw [length]
  · dsimp only
    omega
  · obtain ⟨rfl, rfl, rfl⟩ := whole all
    exact ⟨by simp, rfl⟩
  · obtain ⟨isCut, edged, -⟩ := limit some longer
    dsimp only
    rw [length, stop]
    refine ⟨isCut, edged.limit, edged.left, edged.right, fun c first => ?_, fun c last => ?_⟩
    · obtain ⟨full, is⟩ := head?_slice within first
      exact is ▸ (edged.trimmed full).1
    · obtain ⟨full, is⟩ := getLast?_slice within last
      exact is ▸ (edged.trimmed full).2
  · obtain ⟨-, -, best⟩ := limit some longer
    obtain ⟨low, high⟩ := best i j isBest
    have upTo := isBest.1.2.1
    have starts := placed.start_mono atLeast (show k < _ by omega)
    have stops := placed.stop_mono (show k ≤ j - 1 by omega) (by omega)
    dsimp only
    rw [length, stop]
    exact ⟨low.trans starts, stops.trans high⟩
  · dsimp only
    rw [length, stop]
  · dsimp only
    rw [length]
    exact inWindow

end Snippet

end HybridSearch.Engine
