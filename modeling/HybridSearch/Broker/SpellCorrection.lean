/-
# Broker.SpellCorrection -- spelling correction loses no word

The corrector answers with the closest kept word: of those within distance 2, the
one with the least distance, then the greatest frequency, then the least word.
Only the deletes of the first seven letters are indexed, which is enough because
aligned words keep a common subsequence in their front windows (`Theory.Osa`), for
any length and any edits across the cut.

* `osaDistance_spec`: the table with its early exit is the distance up to its bound;
* `mem_deletesOf`: the recursion with its set reaches every string with at most two
  deletes of the key;
* `share_delete`: words within distance 2 share a delete;
* `correctWord_closest`: the corrector returns the closest kept word.
-/
import Mathlib
import HybridSearch.Broker.SpellCorrector
import HybridSearch.Theory.Osa

namespace HybridSearch.Broker.SpellCorrector

open HybridSearch.Theory HybridSearch.Theory.Osa

set_option autoImplicit false
set_option linter.dupNamespace false

/-! ## The distance -/

section Distance

variable (a b : Word)

/-- Row `i` of the table. -/
def tableRow (i : Nat) : List Nat := (List.range (b.length + 1)).map (osaAt a b i)

variable {a b}

theorem getD_tableRow {i j : Nat} (inside : j ≤ b.length) : (tableRow a b i).getD j 0 = osaAt a b i j := by
  rw [tableRow, List.getD_eq_getElem _ _ (by rw [List.length_map, List.length_range]; omega),
    List.getElem_map, List.getElem_range]

theorem cell_eq {prev2 : List Nat} {i j : Nat} (above : 0 < i → prev2 = tableRow a b (i - 1))
    (inside : j < b.length) :
    cell a b prev2 (tableRow a b i) (i + 1) (j + 1) (osaAt a b (i + 1) j) =
      osaAt a b (i + 1) (j + 1) := by
  rw [cell, osaAt, getD_tableRow inside]
  simp only [Nat.add_sub_cancel]
  rw [getD_tableRow inside.le]
  by_cases swapped : 0 < i ∧ 0 < j ∧ a[i]? = b[j - 1]? ∧ a[i - 1]? = b[j]?
  · have swapped' : i + 1 > 1 ∧ j + 1 > 1 ∧ a[i]? = b[j + 1 - 2]? ∧ a[i + 1 - 2]? = b[j]? :=
      ⟨by omega, by omega, swapped.2.2⟩
    rw [if_pos swapped, if_pos swapped', above swapped.1]
    have back : j + 1 - 2 = j - 1 := by omega
    rw [back, getD_tableRow (by omega)]
  · have swapped' : ¬ (i + 1 > 1 ∧ j + 1 > 1 ∧ a[i]? = b[j + 1 - 2]? ∧ a[i + 1 - 2]? = b[j]?) :=
      fun h => swapped ⟨by omega, by omega, h.2.2⟩
    rw [if_neg swapped, if_neg swapped']

theorem cellsFrom_eq {prev2 : List Nat} {i : Nat} (above : 0 < i → prev2 = tableRow a b (i - 1)) {n j : Nat}
    (fits : j + n = b.length) :
    cellsFrom a b prev2 (tableRow a b i) (i + 1) n (j + 1) (osaAt a b (i + 1) j) =
      (List.range' (j + 1) n).map (osaAt a b (i + 1)) := by
  induction n generalizing j with
  | zero => rfl
  | succ n ih =>
      rw [cellsFrom, cell_eq above (by omega), ih (by omega)]
      rfl

theorem row_eq {prev2 : List Nat} {i : Nat} (above : 0 < i → prev2 = tableRow a b (i - 1)) :
    row a b prev2 (tableRow a b i) (i + 1) = tableRow a b (i + 1) := by
  have cells := @cellsFrom_eq a b prev2 i above b.length 0 (Nat.zero_add _)
  rw [osaAt_left, Nat.zero_add] at cells
  rw [row, cells, tableRow, List.range_eq_range', List.range'_succ, List.map_cons, osaAt_left]

theorem foldl_min_le {l : List Nat} {x start : Nat} (mem : x ∈ l ∨ start ≤ x) : l.foldl min start ≤ x := by
  induction l generalizing start with
  | nil => exact mem.resolve_left List.not_mem_nil
  | cons y rest ih =>
      apply ih
      rcases mem with mem | le
      · rcases List.mem_cons.mp mem with rfl | later
        · exact .inr (min_le_right ..)
        · exact .inl later
      · exact .inr ((min_le_left ..).trans le)

/-- The rows from `i` on: the distance where it is within the bound, else something above it. -/
theorem rowsFrom_spec (bound : Nat) {n i : Nat} (total : i + n = a.length) {prev2 : List Nat}
    (above : 0 < i → prev2 = tableRow a b (i - 1)) :
    (osa a b ≤ bound → rowsFrom a b bound n (i + 1) prev2 (tableRow a b i) = osa a b) ∧
      (bound < osa a b → bound < rowsFrom a b bound n (i + 1) prev2 (tableRow a b i)) := by
  induction n generalizing i prev2 with
  | zero =>
      rw [Nat.add_zero] at total
      rw [rowsFrom, getD_tableRow le_rfl, total]
      exact ⟨fun _ => rfl, fun far => far⟩
  | succ n ih =>
      have next := @ih (i + 1) (by omega) (tableRow a b i) (fun _ => by rw [Nat.add_sub_cancel])
      rw [rowsFrom, row_eq above]
      split_ifs with exits
      · have whole : ∀ j, j ≤ b.length → bound < osaAt a b (i + 1) j := by
          intro j inside
          refine exits.trans_le (foldl_min_le (.inl ?_))
          exact List.mem_map_of_mem (List.mem_range.mpr (by omega))
        have far := osaAt_gt_of_row whole n b.length le_rfl
        have last : i + 1 + n = a.length := by omega
        rw [last] at far
        exact ⟨fun close => absurd far (not_lt.mpr close), fun _ => Nat.lt_succ_self _⟩
      · exact next

/-- **The table with its early exit gives the distance up to the bound.** -/
theorem osaDistance_spec (a b : Word) (bound : Nat) :
    (osa a b ≤ bound → osaDistance a b bound = osa a b) ∧
      (bound < osa a b → bound < osaDistance a b bound) := by
  rw [osaDistance]
  obtain ⟨le, ge⟩ := (osa_aligns a b).length_le
  split_ifs with apart
  · exact ⟨fun close => by omega, fun _ => Nat.lt_succ_self _⟩
  · have first : List.range (b.length + 1) = tableRow a b 0 := by
      rw [tableRow]
      have same : osaAt a b 0 = id := funext fun j => osaAt_zero a b j
      rw [same, List.map_id]
    rw [first]
    exact rowsFrom_spec bound (Nat.zero_add _) fun impossible => absurd impossible (lt_irrefl 0)

end Distance

/-! ## Deletes -/

theorem sublist_eraseIdx {t s : Word} (sub : t.Sublist s) (shorter : t.length < s.length) :
    ∃ i, i < s.length ∧ t.Sublist (s.eraseIdx i) := by
  induction sub with
  | slnil => exact absurd shorter (lt_irrefl _)
  | cons x sub _ => exact ⟨0, Nat.succ_pos _, sub⟩
  | cons_cons x _ ih =>
      obtain ⟨i, inside, sub⟩ := ih (Nat.lt_of_succ_lt_succ shorter)
      exact ⟨i + 1, Nat.succ_lt_succ inside, sub.cons_cons x⟩

/-- Every member below length `len` has all its deletes in the set, as many as are left to it
when strings of length `len` have `depth` left. -/
def Complete (depth len : Nat) (into : List Word) : Prop :=
  ∀ d ∈ into, d.length < len → ∀ t, t.Sublist d → d.length ≤ t.length + (depth - (len - d.length)) →
    t ∈ into

/-- What `addDeletes` makes of a set. -/
structure Added (depth : Nat) (s : Word) (into into' : List Word) : Prop where
  keeps : ∀ d ∈ into, d ∈ into'
  shorter : ∀ d ∈ into', d ∈ into ∨ d.length < s.length
  complete : Complete depth s.length into'

/-- **Every delete of `s` is reached**: a string met before has all the deletes left to it. -/
theorem addDeletes_spec (depth : Nat) : ∀ (s : Word) (into : List Word), depth < s.length →
    Complete depth s.length into →
    Added depth s into (addDeletes depth s into) ∧
      ∀ t, t.Sublist s → t.length < s.length → s.length ≤ t.length + depth →
        t ∈ addDeletes depth s into := by
  induction depth with
  | zero =>
      intro s into _ complete
      exact ⟨⟨fun _ mem => mem, fun _ mem => .inl mem, complete⟩, fun t _ shorter le => by omega⟩
  | succ depth ih =>
      intro s into long complete
      rw [addDeletes, if_neg (by omega)]
      have loop : ∀ k, k ≤ s.length →
          Added (depth + 1) s into ((List.range k).foldl (fun into i =>
            let d := s.eraseIdx i
            if d ∈ into then into else addDeletes depth d (into ++ [d])) into) ∧
          ∀ i, i < k → s.eraseIdx i ∈ (List.range k).foldl (fun into i =>
            let d := s.eraseIdx i
            if d ∈ into then into else addDeletes depth d (into ++ [d])) into := by
        intro k
        induction k with
        | zero => exact fun _ => ⟨⟨fun _ mem => mem, fun _ mem => .inl mem, complete⟩,
            fun i impossible => absurd impossible (Nat.not_lt_zero i)⟩
        | succ k before =>
            intro k_le
            obtain ⟨added, erased⟩ := before (by omega)
            rw [List.range_succ, List.foldl_append, List.foldl_cons, List.foldl_nil]
            generalize (List.range k).foldl (fun into i =>
              let d := s.eraseIdx i
              if d ∈ into then into else addDeletes depth d (into ++ [d])) into = now at *
            have d_len : (s.eraseIdx k).length = s.length - 1 := by
              rw [List.length_eraseIdx, if_pos (by omega)]
            generalize d_is : s.eraseIdx k = d at *
            have at_k (after : List Word) (old : ∀ e ∈ now, e ∈ after) (new : d ∈ after) :
                ∀ i, i < k + 1 → s.eraseIdx i ∈ after := by
              intro i i_lt
              rcases Nat.lt_succ_iff_lt_or_eq.mp i_lt with before | rfl
              · exact old _ (erased i before)
              · exact d_is ▸ new
            by_cases there : d ∈ now
            · rw [if_pos there]
              exact ⟨added, at_k now (fun _ mem => mem) there⟩
            · rw [if_neg there]
              have below : Complete depth d.length (now ++ [d]) := by
                intro e mem shorter t sub le
                rcases List.mem_append.mp mem with old | here
                · exact List.mem_append_left _ (added.complete e old (by omega) t sub (by omega))
                · rw [List.mem_singleton.mp here] at shorter
                  exact absurd shorter (lt_irrefl _)
              obtain ⟨child, reached⟩ := ih d (now ++ [d]) (by omega) below
              have old : ∀ e ∈ now, e ∈ addDeletes depth d (now ++ [d]) :=
                fun e mem => child.keeps e (List.mem_append_left _ mem)
              have new : d ∈ addDeletes depth d (now ++ [d]) := child.keeps d (by simp)
              refine ⟨⟨fun e mem => old e (added.keeps e mem), ?_, ?_⟩, at_k _ old new⟩
              · intro e mem
                rcases child.shorter e mem with here | shorter
                · rcases List.mem_append.mp here with earlier | same
                  · exact added.shorter e earlier
                  · rw [List.mem_singleton.mp same]
                    exact .inr (by omega)
                · exact .inr (by omega)
              · intro e mem e_len t sub le
                rcases Nat.lt_or_ge e.length d.length with shorter | longest
                · exact child.complete e mem shorter t sub (by omega)
                · rcases child.shorter e mem with here | shorter
                  · rcases List.mem_append.mp here with earlier | same
                    · exact old t (added.complete e earlier e_len t sub le)
                    · rw [List.mem_singleton.mp same] at sub le
                      rcases Nat.lt_or_ge t.length d.length with t_shorter | whole
                      · exact reached t sub t_shorter (by omega)
                      · rw [sub.eq_of_length_le whole]
                        exact new
                  · exact absurd shorter (not_lt.mpr longest)
      obtain ⟨added, erased⟩ := loop s.length le_rfl
      refine ⟨added, ?_⟩
      intro t sub shorter le
      obtain ⟨i, inside, sub'⟩ := sublist_eraseIdx sub shorter
      have d_len : (s.eraseIdx i).length = s.length - 1 := by
        rw [List.length_eraseIdx, if_pos inside]
      exact added.complete _ (erased i inside) (by omega) t sub' (by omega)

theorem keyOf_eq (w : Word) : keyOf w = w.take prefixLength := by
  rw [keyOf]
  split_ifs with long
  · rfl
  · exact (List.take_of_length_le (not_lt.mp long)).symm

/-- **The deletes of a word are all strings with at most two deletes of its key.** -/
theorem mem_deletesOf {w t : Word} (long : 3 ≤ w.length) (sub : t.Sublist (keyOf w))
    (le : (keyOf w).length ≤ t.length + maxDistance) : t ∈ deletesOf w := by
  have key_len : (keyOf w).length = min prefixLength w.length := by rw [keyOf_eq, List.length_take]
  have alone : Complete maxDistance (keyOf w).length [keyOf w] := by
    intro d mem shorter
    rw [List.mem_singleton.mp mem] at shorter
    exact absurd shorter (lt_irrefl _)
  have enough : maxDistance < (keyOf w).length := by
    rw [key_len, maxDistance, prefixLength]
    omega
  obtain ⟨added, reached⟩ := addDeletes_spec maxDistance (keyOf w) [keyOf w] enough alone
  rcases Nat.lt_or_ge t.length (keyOf w).length with shorter | whole
  · exact reached t sub shorter le
  · rw [sub.eq_of_length_le whole]
    exact added.keeps _ (List.mem_singleton_self _)

/-- **Words within distance 2 share a delete.** -/
theorem share_delete {a b : Word} (a_long : 3 ≤ a.length) (b_long : 3 ≤ b.length)
    (close : osa a b ≤ maxDistance) : ∃ t, t ∈ deletesOf a ∧ t ∈ deletesOf b := by
  obtain ⟨t, sub, sub', few, few'⟩ := (osa_aligns a b).common prefixLength prefixLength
  rw [← keyOf_eq] at sub sub' few few'
  exact ⟨t, mem_deletesOf a_long sub (by omega), mem_deletesOf b_long sub' (by omega)⟩

/-! ## The index -/

theorem comparePairs_sorted (pairs : List (Nat × Nat)) :
    (pairs.mergeSort comparePairs).Pairwise fun p q => p.1 ≤ q.1 := by
  have sorted := @List.pairwise_mergeSort (Nat × Nat) comparePairs
    (fun a b c first second => by
      unfold comparePairs at *
      split_ifs at * <;> simp only [decide_eq_true_eq] at * <;> omega)
    (fun a b => by
      unfold comparePairs
      split_ifs <;> simp only [Bool.or_eq_true, decide_eq_true_eq] <;> omega) pairs
  refine sorted.imp ?_
  intro p q le
  rw [comparePairs] at le
  split_ifs at le with differ
  · exact of_decide_eq_true le
  · exact (not_not.mp differ).le

/-- From the lower bound on, the pairs of a hash come first. -/
theorem mem_takeWhile_of_sorted {l : List (Nat × Nat)} {h w : Nat}
    (sorted : l.Pairwise fun p q => p.1 ≤ q.1) (from_h : ∀ p ∈ l, h ≤ p.1) (mem : (h, w) ∈ l) :
    (h, w) ∈ l.takeWhile fun p => p.1 = h := by
  induction l with
  | nil => cases mem
  | cons p rest ih =>
      rw [List.pairwise_cons] at sorted
      rcases List.mem_cons.mp mem with here | later
      · subst here
        rw [List.takeWhile_cons_of_pos (by simp)]
        exact List.mem_cons_self ..
      · have first : p.1 = h := le_antisymm (sorted.1 _ later) (from_h p (List.mem_cons_self ..))
        rw [List.takeWhile_cons_of_pos (by simpa using first)]
        exact List.mem_cons_of_mem _
          (ih sorted.2 (fun q q_mem => from_h q (List.mem_cons_of_mem _ q_mem)) later)

namespace SpellCorrector

variable {sc : SpellCorrector} (sorted : sc.pairs.Pairwise fun p q => p.1 ≤ q.1)
include sorted

/-- **The candidates of a hash are the words paired with it.** -/
theorem mem_candidates_iff {h w : Nat} : w ∈ sc.candidates h ↔ (h, w) ∈ sc.pairs := by
  obtain ⟨_, bound, before, after⟩ := @BinarySearch.lowerBound_spec
    (fun i => decide ((sc.pairs.getD i (0, 0)).1 < h)) sc.pairs.length 0 sc.pairs.length
    (Nat.zero_le _) le_rfl (by
      intro i j _ lt j_in below
      rw [decide_eq_true_eq, List.getD_eq_getElem _ _ j_in] at below
      rw [decide_eq_true_eq, List.getD_eq_getElem _ _ (lt.trans j_in)]
      exact (List.pairwise_iff_getElem.mp sorted i j (lt.trans j_in) j_in lt).trans_lt below)
  rw [candidates]
  generalize BinarySearch.lowerBound (fun i => decide ((sc.pairs.getD i (0, 0)).1 < h))
    sc.pairs.length 0 sc.pairs.length = start at *
  rw [List.mem_map]
  constructor
  · rintro ⟨⟨h', w'⟩, mem, rfl⟩
    have passed := List.mem_takeWhile_imp mem
    have same : h' = h := of_decide_eq_true passed
    rw [← same]
    exact List.mem_of_mem_drop ((List.takeWhile_sublist _).subset mem)
  · intro mem
    refine ⟨(h, w), mem_takeWhile_of_sorted (sorted.sublist (List.drop_sublist ..)) ?_ ?_, rfl⟩
    · intro p p_mem
      obtain ⟨i, inside, rfl⟩ := List.mem_iff_getElem.mp p_mem
      rw [List.length_drop] at inside
      have here := after (start + i) (Nat.le_add_right ..) (by omega)
      rw [decide_eq_false_iff_not, List.getD_eq_getElem _ _ (by omega), not_lt] at here
      rwa [List.getElem_drop]
    · obtain ⟨i, inside, found⟩ := List.mem_iff_getElem.mp mem
      have low : start ≤ i := by
        by_contra high
        have := before i (Nat.zero_le i) (not_le.mp high)
        rw [decide_eq_true_eq, List.getD_eq_getElem _ _ inside, found] at this
        exact lt_irrefl _ this
      rw [List.mem_iff_getElem]
      refine ⟨i - start, by rw [List.length_drop]; omega, ?_⟩
      rw [List.getElem_drop]
      simp only [Nat.add_sub_cancel' low, found]

end SpellCorrector

/-! ## The search -/

/-- Least distance first, then greatest frequency, then least word. -/
def rankOf (word : Word) (e : Word × Int) : ℕ ×ₗ ℤ ×ₗ Word :=
  toLex (osa word e.1, toLex (-e.2, e.1))

theorem rankOf_injective (word : Word) : Function.Injective (rankOf word) := by
  intro e e' same
  have parts := toLex.injective same
  have inner := toLex.injective (congrArg Prod.snd parts)
  exact Prod.ext (congrArg Prod.snd inner) (neg_injective (congrArg Prod.fst inner))

/-- **What the corrector is for**: the closest of the kept words within distance 2. -/
noncomputable def closest (word : Word) (kept : List (Word × Int)) : Option Word :=
  ((kept.filter fun e => decide (osa word e.1 ≤ maxDistance)).argmin (rankOf word)).map Prod.fst

section Search

variable {sc : SpellCorrector} {word : Word}

namespace SpellCorrector

def entryAt (sc : SpellCorrector) (w : Nat) : Word × Int := (sc.wordAt w, sc.freqAt w)

/-- The best of the words in `met`, with its distance. -/
def IsBest (sc : SpellCorrector) (word : Word) (met : List Nat) : Option (Nat × Nat) → Prop
  | none => ∀ w ∈ met, maxDistance < osa word (sc.wordAt w)
  | some (w, d) => w ∈ met ∧ d = osa word (sc.wordAt w) ∧ d ≤ maxDistance ∧
      ∀ u ∈ met, osa word (sc.wordAt u) ≤ maxDistance →
        rankOf word (sc.entryAt w) ≤ rankOf word (sc.entryAt u)

theorem beats_iff {d w b bd : Nat} (d_is : d = osa word (sc.wordAt w)) (bd_is : bd = osa word (sc.wordAt b)) :
    sc.beats d w (some (b, bd)) ↔ rankOf word (sc.entryAt w) < rankOf word (sc.entryAt b) := by
  rw [rankOf, rankOf, Prod.Lex.toLex_lt_toLex, Prod.Lex.toLex_lt_toLex, beats, d_is, bd_is]
  simp only [entryAt, neg_lt_neg_iff, neg_inj, gt_iff_lt]

/-- A word out of reach, or met before, leaves the best as it is. -/
theorem IsBest.skip {met : List Nat} {best : Option (Nat × Nat)} (is_best : sc.IsBest word met best)
    {w : Nat} (skipped : w ∈ met ∨ maxDistance < osa word (sc.wordAt w)) :
    sc.IsBest word (met ++ [w]) best := by
  cases best with
  | none =>
      intro u mem
      rcases List.mem_append.mp mem with old | new
      · exact is_best u old
      · rw [List.mem_singleton.mp new]
        exact skipped.elim (is_best w) id
  | some b =>
      obtain ⟨mem_best, d_is, close, least⟩ := is_best
      refine ⟨List.mem_append_left _ mem_best, d_is, close, ?_⟩
      intro u mem u_close
      rcases List.mem_append.mp mem with old | new
      · exact least u old u_close
      · rw [List.mem_singleton.mp new] at u_close ⊢
        rcases skipped with again | far
        · exact least w again u_close
        · exact absurd far (not_lt.mpr u_close)

/-- A word within reach is the best, or the best so far stays. -/
theorem IsBest.meet {met : List Nat} {best : Option (Nat × Nat)} (is_best : sc.IsBest word met best)
    {d w : Nat} (d_is : d = osa word (sc.wordAt w)) (close : d ≤ maxDistance) :
    sc.IsBest word (met ++ [w]) (if sc.beats d w best then some (w, d) else best) := by
  split_ifs with wins
  · refine ⟨List.mem_append_right _ (List.mem_singleton_self w), d_is, close, ?_⟩
    intro u mem u_close
    rcases List.mem_append.mp mem with old | new
    · cases best with
      | none => exact absurd u_close (not_le.mpr (is_best u old))
      | some b =>
          obtain ⟨_, bd_is, _, least⟩ := is_best
          exact ((beats_iff d_is bd_is).mp wins).le.trans (least u old u_close)
    · rw [List.mem_singleton.mp new]
  · cases best with
    | none => exact absurd trivial wins
    | some b =>
        obtain ⟨mem_best, bd_is, b_close, least⟩ := is_best
        refine ⟨List.mem_append_left _ mem_best, bd_is, b_close, ?_⟩
        intro u mem u_close
        rcases List.mem_append.mp mem with old | new
        · exact least u old u_close
        · rw [List.mem_singleton.mp new]
          exact not_lt.mp fun lt => wins ((beats_iff d_is bd_is).mpr lt)

/-- What considering a word keeps. -/
theorem consider_spec {st : Search} {met : List Nat} (seen : ∀ w, w ∈ st.seen ↔ w ∈ met)
    (best : sc.IsBest word met st.best) (w : Nat) :
    (∀ u, u ∈ (sc.consider word st w).seen ↔ u ∈ met ++ [w]) ∧
      sc.IsBest word (met ++ [w]) (sc.consider word st w).best := by
  have seen_new (u : Nat) : u ∈ w :: st.seen ↔ u ∈ met ++ [w] := by
    rw [List.mem_cons, List.mem_append, List.mem_singleton, seen]
    exact or_comm
  obtain ⟨near, far⟩ := osaDistance_spec word (sc.wordAt w) maxDistance
  obtain ⟨len_le, len_ge⟩ := (osa_aligns word (sc.wordAt w)).length_le
  rw [consider]
  by_cases again : w ∈ st.seen
  · rw [if_pos again]
    have met_again := (seen w).mp again
    refine ⟨fun u => ?_, best.skip (.inl met_again)⟩
    rw [seen, List.mem_append, List.mem_singleton]
    exact ⟨.inl, fun mem => mem.elim id fun same => same ▸ met_again⟩
  · rw [if_neg again]
    by_cases lengths : maxDistance < (sc.wordAt w).length - word.length ∨
        maxDistance < word.length - (sc.wordAt w).length
    · rw [if_pos lengths]
      exact ⟨seen_new, best.skip (.inr (by omega))⟩
    · rw [if_neg lengths]
      by_cases out : osaDistance word (sc.wordAt w) maxDistance > maxDistance
      · rw [if_pos out]
        refine ⟨seen_new, best.skip (.inr ?_)⟩
        by_contra close
        rw [near (not_lt.mp close)] at out
        exact close out
      · rw [if_neg out]
        have close : osa word (sc.wordAt w) ≤ maxDistance := not_lt.mp fun beyond => out (far beyond)
        have met_now := best.meet (near close) (not_lt.mp out)
        split_ifs at met_now ⊢ with wins
        · exact ⟨seen_new, met_now⟩
        · exact ⟨seen_new, met_now⟩

/-- What a whole search keeps. -/
theorem foldl_consider (ws : List Nat) {st : Search} {met : List Nat} (seen : ∀ w, w ∈ st.seen ↔ w ∈ met)
    (best : sc.IsBest word met st.best) :
    sc.IsBest word (met ++ ws) (ws.foldl (sc.consider word) st).best := by
  induction ws generalizing st met with
  | nil => simpa using best
  | cons w rest ih =>
      obtain ⟨seen_now, best_now⟩ := consider_spec seen best w
      have := ih seen_now best_now
      rwa [List.append_assoc] at this

end SpellCorrector

end Search

/-! ## The correction -/

section Correction

variable {isLetter : Fin 65536 → Bool} {hash : Word → Nat} {enumerate : List Word → List Word}
  (enumerates : ∀ l, (enumerate l).Perm l) {wordCounts : List (Word × Int)} {minFrequency : Int}

theorem long_of_correctable {w : Word} (correctable : isCorrectable isLetter w = true) : 3 ≤ w.length := by
  rw [isCorrectable] at correctable
  split_ifs at correctable with short
  omega

theorem entryAt_build {w : Nat} (inside : w < (kept isLetter wordCounts minFrequency).length) :
    (build isLetter hash enumerate wordCounts minFrequency).entryAt w =
      (kept isLetter wordCounts minFrequency)[w] := by
  rw [SpellCorrector.entryAt, SpellCorrector.wordAt, SpellCorrector.freqAt, build,
    List.getD_eq_getElem _ _ (by rwa [List.length_map]),
    List.getD_eq_getElem _ _ (by rwa [List.length_map]), List.getElem_map, List.getElem_map]

theorem pairs_sorted : (build isLetter hash enumerate wordCounts minFrequency).pairs.Pairwise
    fun p q => p.1 ≤ q.1 := comparePairs_sorted _

include enumerates in
/-- The index pairs every kept word with the hash of each of its deletes. -/
theorem mem_pairs_iff {h w : Nat} :
    (h, w) ∈ (build isLetter hash enumerate wordCounts minFrequency).pairs ↔
      ∃ inside : w < (kept isLetter wordCounts minFrequency).length,
        ∃ d ∈ deletesOf (kept isLetter wordCounts minFrequency)[w].1, hash d = h := by
  rw [build, (List.mergeSort_perm _ _).mem_iff, List.mem_flatMap]
  constructor
  · rintro ⟨⟨word, i⟩, word_mem, pair_mem⟩
    obtain ⟨d, d_mem, same⟩ := List.mem_map.mp pair_mem
    cases same
    obtain ⟨inside, found⟩ := List.getElem?_eq_some_iff.mp (List.mem_zipIdx_iff_getElem?.mp word_mem)
    rw [List.length_map] at inside
    rw [List.getElem_map] at found
    refine ⟨inside, d, ?_, rfl⟩
    rw [found]
    exact (enumerates _).mem_iff.mp d_mem
  · rintro ⟨inside, d, d_mem, rfl⟩
    refine ⟨((kept isLetter wordCounts minFrequency)[w].1, w), ?_, ?_⟩
    · rw [List.mem_zipIdx_iff_getElem?, List.getElem?_map, List.getElem?_eq_getElem inside]
      rfl
    · exact List.mem_map.mpr ⟨d, (enumerates _).mem_iff.mpr d_mem, rfl⟩

theorem correctable_of_mem_kept {e : Word × Int} (mem : e ∈ kept isLetter wordCounts minFrequency) :
    isCorrectable isLetter e.1 = true := by
  have passed := (List.mem_filter.mp mem).2
  simp only [Bool.not_or, Bool.not_not, Bool.and_eq_true] at passed
  exact passed.2

/-- The words met by a search. -/
def metBy (sc : SpellCorrector) (hash : Word → Nat) (enumerate : List Word → List Word) (word : Word) :
    List Nat :=
  (enumerate (deletesOf word)).flatMap fun p => sc.candidates (hash p)

include enumerates in
theorem lt_of_met {word : Word} {w : Nat}
    (met : w ∈ metBy (build isLetter hash enumerate wordCounts minFrequency) hash enumerate word) :
    w < (kept isLetter wordCounts minFrequency).length := by
  obtain ⟨p, _, candidate⟩ := List.mem_flatMap.mp met
  exact ((mem_pairs_iff enumerates).mp ((SpellCorrector.mem_candidates_iff pairs_sorted).mp candidate)).1

include enumerates in
/-- **Every kept word within reach is met**: it shares a delete with the misspelling. -/
theorem met_of_close {word : Word} (correctable : isCorrectable isLetter word = true) {w : Nat}
    (inside : w < (kept isLetter wordCounts minFrequency).length)
    (close : osa word (kept isLetter wordCounts minFrequency)[w].1 ≤ maxDistance) :
    w ∈ metBy (build isLetter hash enumerate wordCounts minFrequency) hash enumerate word := by
  have there := correctable_of_mem_kept (List.getElem_mem inside)
  obtain ⟨t, ours, theirs⟩ :=
    share_delete (long_of_correctable correctable) (long_of_correctable there) close
  refine List.mem_flatMap.mpr ⟨t, (enumerates _).mem_iff.mpr ours, ?_⟩
  rw [SpellCorrector.mem_candidates_iff pairs_sorted, mem_pairs_iff enumerates]
  exact ⟨inside, t, theirs, rfl⟩

/-- The least of a list is what `argmin` picks where the ranks differ. -/
theorem argmin_eq_of_least {l : List (Word × Int)} {word : Word} {e : Word × Int} (mem : e ∈ l)
    (least : ∀ x ∈ l, rankOf word e ≤ rankOf word x) : l.argmin (rankOf word) = some e := by
  obtain ⟨e', picked⟩ : ∃ e', l.argmin (rankOf word) = some e' := by
    rw [← Option.isSome_iff_exists, Option.isSome_iff_ne_none, Ne, List.argmin_eq_none]
    rintro rfl
    exact absurd mem List.not_mem_nil
  have picked_mem := List.argmin_mem picked
  have le := List.le_of_mem_argmin mem picked
  rw [picked, rankOf_injective word (le_antisymm le (least e' picked_mem))]

theorem closest_eq_none_iff {word : Word} {kept : List (Word × Int)} :
    closest word kept = none ↔ ∀ e ∈ kept, maxDistance < osa word e.1 := by
  rw [closest, Option.map_eq_none_iff, List.argmin_eq_none, List.filter_eq_nil_iff]
  refine forall₂_congr fun e _ => ?_
  rw [decide_eq_true_eq, not_le]

include enumerates in
theorem correctWord_eq_closest (word : Word) (correctable : isCorrectable isLetter word = true)
    (unknown : word ∉ (kept isLetter wordCounts minFrequency).map Prod.fst) :
    (build isLetter hash enumerate wordCounts minFrequency).correctWord isLetter hash enumerate word =
      closest word (kept isLetter wordCounts minFrequency) := by
  have skip : ¬ ((!isCorrectable isLetter word) = true ∨
      word ∈ (build isLetter hash enumerate wordCounts minFrequency).words) := by
    rintro (bad | known)
    · rw [correctable] at bad
      cases bad
    · exact unknown known
  have best := @SpellCorrector.foldl_consider (build isLetter hash enumerate wordCounts minFrequency) word
    (metBy (build isLetter hash enumerate wordCounts minFrequency) hash enumerate word) ⟨[], none⟩ []
    (fun _ => Iff.rfl) (fun _ absent => absurd absent List.not_mem_nil)
  rw [List.nil_append, metBy, List.foldl_flatMap] at best
  rw [SpellCorrector.correctWord, if_neg skip, closest]
  dsimp only
  generalize ((enumerate (deletesOf word)).foldl (fun st p =>
    ((build isLetter hash enumerate wordCounts minFrequency).candidates (hash p)).foldl
      ((build isLetter hash enumerate wordCounts minFrequency).consider word) st) ⟨[], none⟩).best =
    found at best ⊢
  cases found with
  | none =>
      have nobody : (kept isLetter wordCounts minFrequency).filter
          (fun e => decide (osa word e.1 ≤ maxDistance)) = [] := by
        rw [List.filter_eq_nil_iff]
        intro e mem close
        obtain ⟨w, inside, rfl⟩ := List.mem_iff_getElem.mp mem
        rw [decide_eq_true_eq] at close
        have far := best w (met_of_close enumerates correctable inside close)
        have entry := @entryAt_build isLetter hash enumerate wordCounts minFrequency w inside
        rw [← entry] at close
        exact absurd close (not_le.mpr far)
      rw [nobody]
      rfl
  | some b =>
      obtain ⟨b_met, d_is, close, least⟩ := best
      have inside := lt_of_met enumerates b_met
      have entry := @entryAt_build isLetter hash enumerate wordCounts minFrequency b.1 inside
      rw [d_is] at close
      have b_mem : (kept isLetter wordCounts minFrequency)[b.1] ∈
          (kept isLetter wordCounts minFrequency).filter
            (fun e => decide (osa word e.1 ≤ maxDistance)) := by
        refine List.mem_filter.mpr ⟨List.getElem_mem inside, decide_eq_true ?_⟩
        rw [← entry]
        exact close
      rw [argmin_eq_of_least b_mem ?_, ← entry]
      · rfl
      · intro e mem
        obtain ⟨e_kept, e_close⟩ := List.mem_filter.mp mem
        obtain ⟨w, w_inside, rfl⟩ := List.mem_iff_getElem.mp e_kept
        rw [decide_eq_true_eq] at e_close
        have w_met := @met_of_close isLetter hash enumerate enumerates wordCounts minFrequency word correctable
          w w_inside e_close
        have w_entry := @entryAt_build isLetter hash enumerate wordCounts minFrequency w w_inside
        rw [← w_entry] at e_close ⊢
        rw [← entry]
        exact least w w_met e_close

include enumerates in
/-- **The corrector returns the closest kept word**, and nothing exactly where none is within reach. -/
theorem correctWord_closest (word : Word) (correctable : isCorrectable isLetter word = true)
    (unknown : word ∉ (kept isLetter wordCounts minFrequency).map Prod.fst) :
    let sc := build isLetter hash enumerate wordCounts minFrequency
    sc.correctWord isLetter hash enumerate word = closest word (kept isLetter wordCounts minFrequency) ∧
      (sc.correctWord isLetter hash enumerate word = none ↔
        ∀ e ∈ kept isLetter wordCounts minFrequency, maxDistance < osa word e.1) := by
  intro sc
  have same : sc.correctWord isLetter hash enumerate word =
      closest word (kept isLetter wordCounts minFrequency) :=
    correctWord_eq_closest enumerates word correctable unknown
  refine ⟨same, ?_⟩
  rw [same]
  exact closest_eq_none_iff

/-- A hash that tells no two words apart, and "abcdefhg" for "abcdefgh": the swap crosses the key. -/
theorem correctWord_closest_swap :
    let known : List (Word × Int) := [([97, 98, 99, 100, 101, 102, 103, 104], 5)]
    let word : Word := [97, 98, 99, 100, 101, 102, 104, 103]
    let isLetter : Fin 65536 → Bool := fun c => decide (97 ≤ c ∧ c ≤ 122)
    (build isLetter (fun _ => 0) id known 3).correctWord isLetter (fun _ => 0) id word =
      closest word (kept isLetter known 3) :=
  (correctWord_closest (fun _ => List.Perm.refl _) _ (by decide) (by decide)).1

end Correction

end HybridSearch.Broker.SpellCorrector
