/-
# Clicks.Balanced -- balanced interleaving and its credit (py/hybridsearch/clicks/interleave.py)

`balanced` takes from the two rankings in turn and drops what it has seen, so a step may
emit nothing.  `Holds` says which documents are out after any step.

The credit of an impression compares how many clicked documents the two rankings have down
to the rank of the last one.  The scalar and the row form of it read the same ranks, up to
their sentinels for absent documents, which are both beyond every rank (`rank_le_iff`).
-/
import HybridSearch.Theory.Dict
import Mathlib.Data.Finset.Card
import Mathlib.Data.Finset.Dedup
import Mathlib.Data.Int.Order.Basic
import Mathlib.Data.List.Dedup
import Mathlib.Data.List.GetD
import Mathlib.Data.List.Sort

namespace HybridSearch.Clicks

open HybridSearch.Theory

set_option autoImplicit false

variable {ι : Type} [DecidableEq ι]

/-- The local variables of `balanced`. -/
structure Balance (ι : Type) where
  out : List ι
  seen : List ι
  ka : Nat
  kb : Nat
  deriving DecidableEq, Repr

namespace Balance

variable (a b : List ι) (aFirst : Bool)

/-- The condition of the loop. -/
def goesOn (k : Nat) (st : Balance ι) : Bool :=
  decide (st.out.length < k) && (decide (st.ka < a.length) || decide (st.kb < b.length))

/-- `take_a`. -/
def takeA (st : Balance ι) : Bool :=
  if st.ka < a.length ∧ st.kb < b.length then decide (st.ka < st.kb ∨ st.ka = st.kb ∧ aFirst = true)
  else decide (st.ka < a.length)

/-- The end of the body: `out.append(d)` and `seen.add(d)`, if `d` is new. -/
def emit (st : Balance ι) (d : ι) : Balance ι :=
  if d ∈ st.seen then st else { st with out := st.out ++ [d], seen := st.seen ++ [d] }

/-- The body; `none` is an index out of range. -/
def step (st : Balance ι) : Option (Balance ι) :=
  if takeA a b aFirst st then (a[st.ka]?).map fun d => emit { st with ka := st.ka + 1 } d
  else (b[st.kb]?).map fun d => emit { st with kb := st.kb + 1 } d

/-- The loop, with fuel; `none` also when the fuel runs out. -/
def loop (k : Nat) : Nat → Balance ι → Option (Balance ι)
  | 0, st => if goesOn a b k st then none else some st
  | fuel + 1, st =>
      if goesOn a b k st then (step a b aFirst st).bind (loop k fuel) else some st

end Balance

/-- `balanced`; every step moves one of the two counters. -/
def balanced (a b : List ι) (k : Nat) (aFirst : Bool) : Option (List ι) :=
  (Balance.loop a b aFirst k (a.length + b.length) ⟨[], [], 0, 0⟩).map Balance.out

/-! ## Credit -/

/-- `{d: i + 1 for i, d in enumerate(a)}`. -/
def ranks (ranking : List ι) : List (ι × Nat) :=
  Dict.fill [] (ranking.zipIdx.map fun entry => (entry.1, entry.2 + 1))

/-- `ranks.get(d, absent)`. -/
def rankOr (ranking : List ι) (absent : Nat) (d : ι) : Nat := ((ranks ranking).lookup d).getD absent

inductive Winner
  | A
  | B
  | tie
  deriving DecidableEq, Repr

def winner (ha hb : Nat) : Winner := if hb < ha then .A else if ha < hb then .B else .tie

/-- `sorted(set(...))`. -/
def sortedSet (positions : List Nat) : List Nat := positions.dedup.mergeSort

/-- `balanced_credit`; `none` is a clicked position outside the list. -/
def balancedCredit (a b interleaved : List ι) (clickedPositions : List Nat) :
    Option (Nat × Nat × Winner) :=
  let clicked := sortedSet clickedPositions
  match clicked.getLast? with
  | none => some (0, 0, .tie)
  | some p => do
      let inf := 10 ^ 9
      let last ← interleaved[p]?
      let kk := min (rankOr a inf last) (rankOr b inf last)
      let docs ← clicked.mapM (interleaved[·]?)
      let ha := docs.countP fun d => decide (rankOr a inf d ≤ kk)
      let hb := docs.countP fun d => decide (rankOr b inf d ≤ kk)
      pure (ha, hb, winner ha hb)

/-- `_pad`. -/
def pad (lst : List Nat) (k fill : Nat) : List Nat := lst.take k ++ List.replicate (k - lst.length) fill

/-- One row of `rank_a` or `rank_b` in `precompute_balanced`. -/
def rankRow (ranking interleaved : List ι) (k : Nat) : List Nat :=
  let big := 10 ^ 6
  pad (interleaved.map (rankOr ranking big)) k big

/-- `np.argmax` of a row of booleans. -/
def argmax (row : List Bool) : Nat := if row.any id then row.findIdx id else 0

/-- `balanced_outcome_batch`, for one impression. -/
def balancedOutcome (rankA rankB : List Nat) (clicks : List Bool) : Int :=
  let k := clicks.length
  let anyClick := clicks.any id
  let last := k - 1 - argmax clicks.reverse
  let kk := min (rankA.getD last 0) (rankB.getD last 0)
  let ha := (clicks.zip rankA).countP fun x => x.1 && decide (x.2 ≤ kk)
  let hb := (clicks.zip rankB).countP fun x => x.1 && decide (x.2 ≤ kk)
  if anyClick then ((ha : Int) - hb).sign else 0

/-- The row of `clicks` with these positions. -/
def clickRow (k : Nat) (positions : List Nat) : List Bool :=
  (List.range k).map fun p => decide (p ∈ positions)

/-- What the batch says for a winner. -/
def Winner.value : Winner → Int
  | .A => 1
  | .B => -1
  | .tie => 0

/-! ## The interleaved list -/

namespace Balance

variable {a b : List ι} {k : Nat}

/-- These are the documents of the first `i` of `a` and the first `j` of `b`, and the two are close
unless one ranking is exhausted. -/
def Union (a b front : List ι) (i j : Nat) : Prop :=
  i ≤ a.length ∧ j ≤ b.length ∧ (∀ d, d ∈ front ↔ d ∈ a.take i ∨ d ∈ b.take j) ∧
    (i < a.length → j < b.length → i ≤ j + 1 ∧ j ≤ i + 1)

structure Holds (a b : List ι) (k : Nat) (st : Balance ι) : Prop where
  seen : st.seen = st.out
  nodup : st.out.Nodup
  short : st.out.length ≤ k
  now : Union a b st.out st.ka st.kb
  fronts : ∀ n ≤ st.out.length, ∃ i j, Union a b (st.out.take n) i j

/-- One document more. -/
theorem Holds.emit {st : Balance ι} (holds : Holds a b k st) (less : st.out.length < k) {d : ι} {i j : Nat}
    (a_le : i ≤ a.length) (b_le : j ≤ b.length)
    (adds : ∀ x, x ∈ a.take i ∨ x ∈ b.take j ↔ (x ∈ a.take st.ka ∨ x ∈ b.take st.kb) ∨ x = d)
    (close : i < a.length → j < b.length → i ≤ j + 1 ∧ j ≤ i + 1) :
    Holds a b k (emit { st with ka := i, kb := j } d) := by
  have now := holds.now.2.2.1
  rw [Balance.emit]
  dsimp only
  by_cases old : d ∈ st.seen
  · rw [if_pos old]
    refine ⟨holds.seen, holds.nodup, holds.short, ⟨a_le, b_le, fun x => ?_, close⟩, holds.fronts⟩
    rw [adds, ← now, iff_self_or]
    rintro rfl
    exact holds.seen ▸ old
  · rw [if_neg old]
    have union : Union a b (st.out ++ [d]) i j := by
      refine ⟨a_le, b_le, fun x => ?_, close⟩
      rw [adds, ← now, List.mem_append, List.mem_singleton]
    refine ⟨?_, ?_, ?_, union, fun n n_le => ?_⟩
    · rw [holds.seen]
    · refine List.nodup_append.mpr ⟨holds.nodup, List.nodup_singleton d, fun x mem y last same => ?_⟩
      rw [List.mem_singleton.mp last] at same
      exact old (holds.seen ▸ same ▸ mem)
    · rw [List.length_append, List.length_singleton]
      exact less
    · rw [List.length_append, List.length_singleton] at n_le
      rcases Nat.lt_or_ge st.out.length n with all | part
      · rw [List.take_of_length_le (by rw [List.length_append, List.length_singleton]; omega)]
        exact ⟨i, j, union⟩
      · rw [List.take_append_of_le_length part]
        exact holds.fronts n part

omit [DecidableEq ι] in
theorem mem_take_succ {l : List ι} {i : Nat} (inside : i < l.length) (x : ι) :
    x ∈ l.take (i + 1) ↔ x ∈ l.take i ∨ x = l[i] := by
  rw [List.take_succ_eq_append_getElem inside, List.mem_append, List.mem_singleton]

theorem Holds.step {st : Balance ι} (holds : Holds a b k st) (aFirst : Bool) (goes : goesOn a b k st = true) :
    ∃ st', Balance.step a b aFirst st = some st' ∧ Holds a b k st' ∧ st'.ka + st'.kb = st.ka + st.kb + 1 := by
  rw [goesOn, Bool.and_eq_true, Bool.or_eq_true, decide_eq_true_eq, decide_eq_true_eq,
    decide_eq_true_eq] at goes
  obtain ⟨less, left⟩ := goes
  obtain ⟨a_le, b_le, -, close⟩ := holds.now
  have counters {st : Balance ι} (d : ι) : (Balance.emit st d).ka = st.ka ∧ (Balance.emit st d).kb = st.kb := by
    rw [Balance.emit]
    split_ifs <;> exact ⟨rfl, rfl⟩
  rw [Balance.step]
  by_cases side : takeA a b aFirst st = true
  · rw [if_pos side]
    rw [takeA] at side
    have inside : st.ka < a.length := by
      split_ifs at side with both
      · exact both.1
      · exact of_decide_eq_true side
    rw [List.getElem?_eq_getElem inside]
    refine ⟨_, rfl, holds.emit less inside b_le (fun x => ?_) (fun _ b_left => ?_), ?_⟩
    · rw [mem_take_succ inside, or_right_comm]
    · rw [if_pos ⟨inside, b_left⟩, decide_eq_true_eq] at side
      have old := close inside b_left
      omega
    · rw [(counters _).1, (counters _).2]
      exact Nat.add_right_comm ..
  · rw [if_neg side]
    rw [takeA] at side
    have inside : st.kb < b.length := by
      split_ifs at side with both
      · exact both.2
      · rw [decide_eq_true_eq] at side
        exact left.resolve_left side
    rw [List.getElem?_eq_getElem inside]
    refine ⟨_, rfl, holds.emit less a_le inside (fun x => ?_) (fun a_left _ => ?_), ?_⟩
    · rw [mem_take_succ inside, or_assoc]
    · rw [if_pos ⟨a_left, inside⟩, decide_eq_true_eq, not_or] at side
      have old := close a_left inside
      omega
    · rw [(counters _).1, (counters _).2]
      exact (Nat.add_assoc ..).symm

/-- **The loop ends within its fuel.** -/
theorem Holds.loop {st : Balance ι} (holds : Holds a b k st) (aFirst : Bool) {fuel : Nat}
    (enough : a.length + b.length ≤ st.ka + st.kb + fuel) :
    ∃ st', Balance.loop a b aFirst k fuel st = some st' ∧ Holds a b k st' ∧ goesOn a b k st' = false := by
  induction fuel generalizing st with
  | zero =>
      obtain ⟨a_le, b_le, -⟩ := holds.now
      have ended : goesOn a b k st = false := by
        rw [goesOn, decide_eq_false (p := st.ka < a.length) (by omega),
          decide_eq_false (p := st.kb < b.length) (by omega), Bool.or_false, Bool.and_false]
      rw [Balance.loop, if_neg (Bool.eq_false_iff.mp ended)]
      exact ⟨st, rfl, holds, ended⟩
  | succ fuel ih =>
      rw [Balance.loop]
      by_cases goes : goesOn a b k st = true
      · obtain ⟨st', stepped, holds', counters⟩ := holds.step aFirst goes
        rw [if_pos goes, stepped]
        exact ih holds' (by omega)
      · rw [if_neg goes]
        exact ⟨st, rfl, holds, Bool.eq_false_iff.mpr goes⟩

end Balance

/-- **What `balanced` returns.** -/
theorem balanced_spec (a b : List ι) (k : Nat) (aFirst : Bool) :
    ∃ out, balanced a b k aFirst = some out ∧ out.Nodup ∧ out.length = min k (a ++ b).toFinset.card ∧
      (∀ d ∈ out, d ∈ a ∨ d ∈ b) ∧ ∀ n ≤ out.length, ∃ i j, Balance.Union a b (out.take n) i j := by
  have start : Balance.Holds a b k ⟨[], [], 0, 0⟩ := by
    have empty : Balance.Union a b [] 0 0 := ⟨Nat.zero_le _, Nat.zero_le _, fun d => by simp, by omega⟩
    exact ⟨rfl, List.nodup_nil, Nat.zero_le _, empty, fun n _ => ⟨0, 0, by rwa [List.take_nil]⟩⟩
  obtain ⟨st, ran, holds, ended⟩ : ∃ st,
      Balance.loop a b aFirst k (a.length + b.length) ⟨[], [], 0, 0⟩ = some st ∧
        Balance.Holds a b k st ∧ Balance.goesOn a b k st = false :=
    start.loop aFirst (by simp)
  obtain ⟨a_le, b_le, now, -⟩ := holds.now
  have sub : ∀ d ∈ st.out, d ∈ a ∨ d ∈ b := fun d mem =>
    ((now d).mp mem).imp List.mem_of_mem_take List.mem_of_mem_take
  have card : st.out.toFinset.card = st.out.length := List.toFinset_card_of_nodup holds.nodup
  have few : st.out.length ≤ (a ++ b).toFinset.card := by
    rw [← card]
    refine Finset.card_le_card fun d mem => ?_
    rw [List.mem_toFinset] at mem ⊢
    exact List.mem_append.mpr (sub d mem)
  refine ⟨st.out, by rw [balanced, ran]; rfl, holds.nodup, ?_, sub, holds.fronts⟩
  have short := holds.short
  rw [Balance.goesOn, Bool.and_eq_false_iff, Bool.or_eq_false_iff, decide_eq_false_iff_not,
    decide_eq_false_iff_not, decide_eq_false_iff_not] at ended
  rcases ended with full | ⟨a_done, b_done⟩
  · omega
  · have all : (a ++ b).toFinset ⊆ st.out.toFinset := by
      intro d mem
      rw [List.mem_toFinset, List.mem_append] at mem
      rw [List.mem_toFinset, now, List.take_of_length_le (Nat.not_lt.mp a_done),
        List.take_of_length_le (Nat.not_lt.mp b_done)]
      exact mem
    have many := Finset.card_le_card all
    omega

/-! ## Ranks -/

section Ranks

variable {ranking : List ι} (nodup : ranking.Nodup) (short : ranking.length < 10 ^ 6)

include nodup in
theorem lookup_ranks (d : ι) :
    (ranks ranking).lookup d = if d ∈ ranking then some (ranking.idxOf d + 1) else none := by
  have keys : Dict.keys (ranking.zipIdx.map fun entry => (entry.1, entry.2 + 1)) = ranking := by
    rw [Dict.keys, List.map_map]
    exact List.zipIdx_map_fst 0 ranking
  rw [ranks, Dict.fill_nil (keys.symm ▸ nodup)]
  by_cases mem : d ∈ ranking
  · rw [if_pos mem]
    refine Dict.lookup_of_mem (keys.symm ▸ nodup) (List.mem_map.mpr ⟨(d, ranking.idxOf d), ?_, rfl⟩)
    rw [List.mem_zipIdx_iff_getElem?]
    exact List.getElem?_idxOf mem
  · rw [if_neg mem]
    exact Dict.lookup_eq_none (keys.symm ▸ mem)

include nodup short

theorem rankOr_mem {d : ι} (mem : d ∈ ranking) (absent : Nat) :
    rankOr ranking absent d = ranking.idxOf d + 1 ∧ ranking.idxOf d + 1 < 10 ^ 6 := by
  rw [rankOr, lookup_ranks nodup, if_pos mem]
  exact ⟨rfl, (Nat.succ_le_of_lt (List.idxOf_lt_length_of_mem mem)).trans_lt short⟩

omit short in
theorem rankOr_absent {d : ι} (new : d ∉ ranking) (absent : Nat) : rankOr ranking absent d = absent := by
  rw [rankOr, lookup_ranks nodup, if_neg new]
  rfl

/-- **Both sentinels are beyond every rank.** -/
theorem rank_le_iff {kk : Nat} (rank : kk < 10 ^ 6) (d : ι) :
    rankOr ranking (10 ^ 9) d ≤ kk ↔ rankOr ranking (10 ^ 6) d ≤ kk := by
  by_cases mem : d ∈ ranking
  · rw [(rankOr_mem nodup short mem _).1, (rankOr_mem nodup short mem _).1]
  · rw [rankOr_absent nodup mem, rankOr_absent nodup mem]
    omega

end Ranks

/-- The rank of a document that one of the rankings has. -/
theorem min_rank {a b : List ι} (a_nodup : a.Nodup) (b_nodup : b.Nodup) (a_short : a.length < 10 ^ 6)
    (b_short : b.length < 10 ^ 6) {d : ι} (mem : d ∈ a ∨ d ∈ b) :
    min (rankOr a (10 ^ 9) d) (rankOr b (10 ^ 9) d) = min (rankOr a (10 ^ 6) d) (rankOr b (10 ^ 6) d) ∧
      min (rankOr a (10 ^ 6) d) (rankOr b (10 ^ 6) d) < 10 ^ 6 := by
  by_cases in_a : d ∈ a <;> by_cases in_b : d ∈ b
  · rw [(rankOr_mem a_nodup a_short in_a _).1, (rankOr_mem b_nodup b_short in_b _).1,
      (rankOr_mem a_nodup a_short in_a (10 ^ 6)).1, (rankOr_mem b_nodup b_short in_b (10 ^ 6)).1]
    exact ⟨rfl, (min_le_left _ _).trans_lt (rankOr_mem a_nodup a_short in_a 0).2⟩
  · have small := (rankOr_mem a_nodup a_short in_a 0).2
    rw [(rankOr_mem a_nodup a_short in_a _).1, rankOr_absent b_nodup in_b,
      (rankOr_mem a_nodup a_short in_a (10 ^ 6)).1, rankOr_absent b_nodup in_b]
    omega
  · have small := (rankOr_mem b_nodup b_short in_b 0).2
    rw [(rankOr_mem b_nodup b_short in_b _).1, rankOr_absent a_nodup in_a,
      (rankOr_mem b_nodup b_short in_b (10 ^ 6)).1, rankOr_absent a_nodup in_a]
    omega
  · exact absurd mem (not_or.mpr ⟨in_a, in_b⟩)

/-! ## Clicked positions -/

theorem sortedSet_perm {positions : List Nat} {k : Nat} (inside : ∀ p ∈ positions, p < k) :
    (sortedSet positions).Perm ((List.range k).filter fun p => decide (p ∈ positions)) := by
  refine (List.mergeSort_perm _ _).trans ?_
  rw [List.perm_ext_iff_of_nodup (List.nodup_dedup _) (List.nodup_range.filter _)]
  intro p
  rw [List.mem_dedup, List.mem_filter, List.mem_range, decide_eq_true_eq]
  exact ⟨fun mem => ⟨inside p mem, mem⟩, fun both => both.2⟩

/-- The last of the sorted positions. -/
theorem getLast_sortedSet {positions : List Nat} {p : Nat}
    (last : (sortedSet positions).getLast? = some p) : p ∈ positions ∧ ∀ q ∈ positions, q ≤ p := by
  obtain ⟨front, split⟩ := List.getLast?_eq_some_iff.mp last
  have mem (q : Nat) : q ∈ positions ↔ q ∈ front ++ [p] := by
    rw [← split, sortedSet, (List.mergeSort_perm _ _).mem_iff, List.mem_dedup]
  have in_order : (sortedSet positions).Pairwise fun x y => decide (x ≤ y) = true :=
    List.pairwise_mergeSort (fun x y z => by simpa using le_trans) (fun x y => by simpa using le_total x y) _
  rw [split] at in_order
  refine ⟨(mem p).mpr (List.mem_append_right _ (List.mem_singleton.mpr rfl)), fun q q_mem => ?_⟩
  rcases List.mem_append.mp ((mem q).mp q_mem) with before | same
  · exact of_decide_eq_true ((List.pairwise_append.mp in_order).2.2 q before p (List.mem_singleton.mpr rfl))
  · exact (List.mem_singleton.mp same).le

theorem length_clickRow (k : Nat) (positions : List Nat) : (clickRow k positions).length = k := by
  rw [clickRow, List.length_map, List.length_range]

theorem getElem_clickRow {k : Nat} {positions : List Nat} {p : Nat} (inside : p < (clickRow k positions).length) :
    (clickRow k positions)[p] = decide (p ∈ positions) := by
  simp only [clickRow, List.getElem_map, List.getElem_range]

/-- **The arg-max of the reversed row finds the last click.** -/
theorem last_click {k : Nat} {positions : List Nat} {p : Nat} (inside : p < k) (mem : p ∈ positions)
    (last : ∀ q ∈ positions, q ≤ p) : k - 1 - argmax (clickRow k positions).reverse = p := by
  have length := length_clickRow k positions
  have place : (clickRow k positions).reverse.findIdx id = k - 1 - p := by
    rw [List.findIdx_eq (by rw [List.length_reverse, length]; omega)]
    constructor
    · rw [id, List.getElem_reverse, getElem_clickRow, decide_eq_true_eq, length,
        show k - 1 - (k - 1 - p) = p by omega]
      exact mem
    · intro j less
      rw [id, List.getElem_reverse, getElem_clickRow, decide_eq_false_iff_not, length]
      intro later
      have bound := last _ later
      omega
  have clicked : (clickRow k positions).reverse.any id = true := by
    rw [List.any_reverse, clickRow, List.any_map, List.any_eq_true]
    exact ⟨p, List.mem_range.mpr inside, decide_eq_true mem⟩
  rw [argmax, if_pos clicked, place]
  omega

omit [DecidableEq ι] in
/-- The documents at positions of the list. -/
theorem mapM_docs {out : List ι} {clicked : List Nat} (inside : ∀ p ∈ clicked, p < out.length) :
    ∃ docs, clicked.mapM (out[·]?) = some docs ∧
      ∀ f : ι → Bool, docs.countP f = clicked.countP fun p => (out[p]?).any f := by
  induction clicked with
  | nil => exact ⟨[], rfl, fun f => rfl⟩
  | cons p rest ih =>
      obtain ⟨docs, ran, count⟩ := ih fun q mem => inside q (List.mem_cons_of_mem p mem)
      have place := inside p List.mem_cons_self
      have entry := List.getElem?_eq_getElem place
      refine ⟨out[p] :: docs, ?_, fun f => ?_⟩
      · rw [List.mapM_cons, entry, ran]
        rfl
      · rw [List.countP_cons, List.countP_cons, count, entry]
        rfl

theorem length_rankRow (ranking out : List ι) (k : Nat) : (rankRow ranking out k).length = k := by
  rw [rankRow, pad, List.length_append, List.length_take, List.length_replicate, List.length_map]
  omega

theorem getD_rankRow {ranking out : List ι} {k p : Nat} (inside : p < out.length) (short : out.length ≤ k) :
    (rankRow ranking out k).getD p 0 = rankOr ranking (10 ^ 6) out[p] := by
  rw [rankRow, pad, List.take_of_length_le (by rwa [List.length_map]),
    List.getD_append _ _ _ _ (by rwa [List.length_map]),
    List.getD_eq_getElem _ _ (by rwa [List.length_map]), List.getElem_map]

/-- **The clicked documents down to a rank**, in the row and in the sorted positions. -/
theorem countP_row {ranking out : List ι} {positions : List Nat} {k : Nat} (short : out.length ≤ k)
    (inside : ∀ p ∈ positions, p < out.length) (kk : Nat) :
    ((clickRow k positions).zip (rankRow ranking out k)).countP (fun x => x.1 && decide (x.2 ≤ kk)) =
      (sortedSet positions).countP fun p => (out[p]?).any fun d => decide (rankOr ranking (10 ^ 6) d ≤ kk) := by
  have row : rankRow ranking out k = (List.range k).map fun p => (rankRow ranking out k).getD p 0 := by
    refine List.ext_getElem (by rw [length_rankRow, List.length_map, List.length_range]) fun p low _ => ?_
    rw [List.getElem_map, List.getElem_range, List.getD_eq_getElem _ _ low]
  rw [row, clickRow, List.zip_map', List.countP_map,
    (sortedSet_perm fun p mem => (inside p mem).trans_le short).countP_eq, List.countP_filter]
  refine List.countP_congr fun p _ => ?_
  by_cases mem : p ∈ positions
  · have place := inside p mem
    rw [Function.comp, getD_rankRow place short, List.getElem?_eq_getElem place, Option.any_some,
      decide_eq_true mem, Bool.true_and, Bool.and_true]
  · rw [Function.comp, decide_eq_false mem, Bool.false_and, Bool.and_false]

theorem sign_eq_value (ha hb : Nat) : ((ha : Int) - hb).sign = (winner ha hb).value := by
  rw [winner]
  split_ifs with more less
  · exact Int.sign_eq_one_of_pos (by omega)
  · exact Int.sign_eq_neg_one_of_neg (by omega)
  · obtain rfl : ha = hb := by omega
    rw [Int.sub_self]
    rfl

/-- **Balanced interleaving, and its credit in both forms.** -/
theorem balanced_credit_agrees {a b : List ι} (a_nodup : a.Nodup) (b_nodup : b.Nodup)
    (a_short : a.length < 10 ^ 6) (b_short : b.length < 10 ^ 6) {k : Nat} (k_pos : 1 ≤ k) (aFirst : Bool) :
    ∃ out, balanced a b k aFirst = some out ∧ out.Nodup ∧ out.length = min k (a ++ b).toFinset.card ∧
      (∀ n ≤ out.length, ∃ i j, Balance.Union a b (out.take n) i j) ∧
      ∀ positions : List Nat, (∀ p ∈ positions, p < out.length) →
        ∃ ha hb w, balancedCredit a b out positions = some (ha, hb, w) ∧
          balancedOutcome (rankRow a out k) (rankRow b out k) (clickRow k positions) = w.value := by
  obtain ⟨out, ran, nodup, length, sub, fronts⟩ := balanced_spec a b k aFirst
  refine ⟨out, ran, nodup, length, fronts, fun positions inside => ?_⟩
  have short : out.length ≤ k := length ▸ Nat.min_le_left _ _
  cases last : (sortedSet positions).getLast? with
  | none =>
      have no_click : ¬(clickRow k positions).any id = true := by
        rw [clickRow, List.any_map, List.any_eq_true]
        rintro ⟨p, -, mem⟩
        have place : p ∈ sortedSet positions :=
          (List.mergeSort_perm _ _).mem_iff.mpr (List.mem_dedup.mpr (of_decide_eq_true mem))
        rw [List.getLast?_eq_none_iff.mp last] at place
        cases place
      refine ⟨0, 0, .tie, ?_, ?_⟩
      · simp only [balancedCredit, last]
      · rw [balancedOutcome, if_neg no_click]
        rfl
  | some p =>
      obtain ⟨mem, greatest⟩ := getLast_sortedSet last
      have place := inside p mem
      have clicked : (clickRow k positions).any id = true := by
        rw [clickRow, List.any_map, List.any_eq_true]
        exact ⟨p, List.mem_range.mpr (place.trans_le short), decide_eq_true mem⟩
      have sorted_inside : ∀ q ∈ sortedSet positions, q < out.length := fun q q_mem =>
        inside q (List.mem_dedup.mp ((List.mergeSort_perm _ _).mem_iff.mp q_mem))
      obtain ⟨docs, mapped, count⟩ := mapM_docs sorted_inside
      obtain ⟨same_rank, small⟩ := min_rank a_nodup b_nodup a_short b_short (sub _ (List.getElem_mem place))
      have kk : min ((rankRow a out k).getD p 0) ((rankRow b out k).getD p 0) =
          min (rankOr a (10 ^ 6) out[p]) (rankOr b (10 ^ 6) out[p]) := by
        rw [getD_rankRow place short, getD_rankRow place short]
      have side {ranking : List ι} (r_nodup : ranking.Nodup) (r_short : ranking.length < 10 ^ 6) :
          docs.countP (fun d => decide (rankOr ranking (10 ^ 9) d ≤
            min (rankOr a (10 ^ 6) out[p]) (rankOr b (10 ^ 6) out[p]))) =
          ((clickRow k positions).zip (rankRow ranking out k)).countP fun x =>
            x.1 && decide (x.2 ≤ min (rankOr a (10 ^ 6) out[p]) (rankOr b (10 ^ 6) out[p])) := by
        rw [countP_row short inside, count]
        simp only [rank_le_iff r_nodup r_short small]
      have credit : balancedCredit a b out positions =
          let kk := min (rankOr a (10 ^ 9) out[p]) (rankOr b (10 ^ 9) out[p])
          let ha := docs.countP fun d => decide (rankOr a (10 ^ 9) d ≤ kk)
          let hb := docs.countP fun d => decide (rankOr b (10 ^ 9) d ≤ kk)
          some (ha, hb, winner ha hb) := by
        simp only [balancedCredit, last, List.getElem?_eq_getElem place, mapped, Option.bind_eq_bind,
          Option.bind_some]
        rfl
      dsimp only at credit
      rw [same_rank, side a_nodup a_short, side b_nodup b_short] at credit
      refine ⟨_, _, _, credit, ?_⟩
      rw [balancedOutcome, if_pos clicked, length_clickRow,
        last_click (place.trans_le short) mem greatest, kk, sign_eq_value]

/-- Two rankings that share a document, shown in full. -/
theorem balanced_credit_agrees_shared : ∃ out, balanced [1, 2, 3] [3, 4] 9 true = some out ∧
    out.length = min 9 ([1, 2, 3] ++ [3, 4]).toFinset.card := by
  obtain ⟨out, ran, -, length, -⟩ := @balanced_credit_agrees Nat _ [1, 2, 3] [3, 4] (by decide) (by decide)
    (by decide) (by decide) 9 (by decide) true
  exact ⟨out, ran, length⟩

end HybridSearch.Clicks
