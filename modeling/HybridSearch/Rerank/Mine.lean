/-
# Rerank.Mine -- exact dense top-k over row chunks (py/hybridsearch/rerank/mine.py)

`exactTopk` keeps for every query a running top-k, filled up with sentinels, and merges it
with `kk` candidates of each chunk of rows.  `argpartition` picks the candidates, and among
equal scores it may pick any, before the merge breaks ties by row id.

What a query ends with is the best `k` of all its candidates (`exactTopk_eq`), so it is
exact if no row of the true top-k can lose its place in its own chunk to a tie.  Where one
can, there is a lawful `argpartition` that drops a row (`reversed`).

Scores are exact: rationals, and the bottom for `-np.inf`.
-/
import HybridSearch.Theory.BestK
import Mathlib.Algebra.BigOperators.Group.List.Basic
import Mathlib.Algebra.Order.Ring.Rat
import Mathlib.Data.List.GetD
import Mathlib.Order.WithBot

namespace HybridSearch.Rerank

open HybridSearch.Theory

set_option autoImplicit false

/-- A score with its row id: one place of `S` and `I`. -/
abbrev Scored := WithBot ℚ × Nat

/-- The order of `np.lexsort((allI, -allS))`. -/
def before (a b : Scored) : Bool := decide (b.1 < a.1 ∨ a.1 = b.1 ∧ a.2 ≤ b.2)

/-- `range(0, n, step)`. -/
def pyRange (n step : Nat) : List Nat := (List.range ((n + step - 1) / step)).map (· * step)

def dot (q x : List ℚ) : ℚ := (List.zipWith (· * ·) q x).sum

/-- `queries @ block.T`. -/
def scores (queries block : List (List ℚ)) : List (List ℚ) := queries.map fun q => block.map (dot q)

/-- `np.argpartition` of one row: some order of the places, the first `kth + 1` of them the least. -/
structure Lawful (argpartition : List ℚ → Nat → List Nat) : Prop where
  perm : ∀ xs kth, kth < xs.length → (argpartition xs kth).Perm (List.range xs.length)
  least : ∀ xs kth, kth < xs.length → ∀ a ∈ (argpartition xs kth).take (kth + 1),
    ∀ b ∈ (argpartition xs kth).drop (kth + 1), xs.getD a 0 ≤ xs.getD b 0

variable (argpartition : List ℚ → Nat → List Nat)

/-- What one chunk offers: `cs` with `part + c0`. -/
def offered (k c0 : Nat) (sc : List ℚ) : List Scored :=
  let kk := min k sc.length
  let part := (argpartition (sc.map (- ·)) (kk - 1)).take kk
  part.map fun j => ((sc.getD j 0 : ℚ), j + c0)

def mergeRow (k c0 : Nat) (row : List Scored) (sc : List ℚ) : List Scored :=
  ((row ++ offered argpartition k c0 sc).mergeSort before).take k

/-- The sentinel of `np.full`. -/
def sentinel : Scored := (⊥, 2 ^ 63 - 1)

/-- One chunk of rows, the queries in batches. -/
def mergeChunk (queries : List (List ℚ)) (k batch c0 : Nat) (block : List (List ℚ))
    (rows : List (List Scored)) : List (List Scored) :=
  (pyRange queries.length batch).foldl (fun rows i =>
    let sc := scores ((queries.drop i).take batch) block
    rows.take i ++ List.zipWith (mergeRow argpartition k c0) ((rows.drop i).take batch) sc ++
      rows.drop (i + batch)) rows

/-- `exact_topk`. -/
def exactTopk (xb queries : List (List ℚ)) (k batch chunk : Nat) : List (List Scored) :=
  let n := xb.length
  let k := min k n
  let start := List.replicate queries.length (List.replicate k sentinel)
  (pyRange n chunk).foldl (fun rows c0 =>
    mergeChunk argpartition queries k batch c0 ((xb.drop c0).take chunk) rows) start

/-- What the function is for: every row with its score. -/
def entries (xb : List (List ℚ)) (q : List ℚ) : List Scored :=
  (List.range xb.length).map fun i => ((dot q (xb.getD i []) : ℚ), i)

/-- The best `min k n` rows, ties by lower row id. -/
def truth (xb : List (List ℚ)) (k : Nat) (q : List ℚ) : List Scored :=
  BestK.best before (min k xb.length) (entries xb q)

/-- A row with fewer than `k` others before it has at most `k` rows of its chunk, itself among
them, that score as high. -/
def TiesFit (xb : List (List ℚ)) (k chunk : Nat) (q : List ℚ) : Prop :=
  ∀ r < xb.length,
    (entries xb q).countP (fun e => before e (dot q (xb.getD r []), r)) ≤ k →
    ((List.range xb.length).filter fun j =>
      j / chunk = r / chunk ∧ dot q (xb.getD r []) ≤ dot q (xb.getD j [])).length ≤ k

instance (xb : List (List ℚ)) (k chunk : Nat) (q : List ℚ) : Decidable (TiesFit xb k chunk q) := by
  unfold TiesFit
  infer_instance

/-! ## The order -/

theorem before_linear : BestK.Linear before where
  trans := by
    rintro ⟨a, i⟩ ⟨b, j⟩ ⟨c, l⟩ ab bc
    rw [before, decide_eq_true_eq] at *
    rcases ab with less | ⟨rfl, le⟩ <;> rcases bc with less' | ⟨rfl, le'⟩
    · exact .inl (less'.trans less)
    · exact .inl less
    · exact .inl less'
    · exact .inr ⟨rfl, le.trans le'⟩
  total := by
    rintro ⟨a, i⟩ ⟨b, j⟩
    rw [before, before, Bool.or_eq_true, decide_eq_true_eq, decide_eq_true_eq]
    rcases lt_trichotomy a b with less | rfl | more
    · exact .inr (.inl less)
    · exact (Nat.le_total i j).imp (fun le => .inr ⟨rfl, le⟩) fun le => .inr ⟨rfl, le⟩
    · exact .inl (.inl more)
  antisymm := by
    rintro ⟨a, i⟩ ⟨b, j⟩ ab ba
    rw [before, decide_eq_true_eq] at *
    rcases ab with less | ⟨rfl, le⟩ <;> rcases ba with less' | ⟨same, le'⟩
    · exact absurd less' less.le.not_gt
    · exact absurd same less.ne
    · exact absurd less' (lt_irrefl _)
    · exact Prod.ext rfl (le.antisymm le')

theorem before_sentinel (v : ℚ) (i : Nat) : before (v, i) sentinel = true :=
  decide_eq_true (.inl (WithBot.bot_lt_coe v))

theorem nodup_entries (xb : List (List ℚ)) (q : List ℚ) : (entries xb q).Nodup :=
  List.nodup_range.map fun _ _ same => congrArg Prod.snd same

theorem mem_entries {xb : List (List ℚ)} {q : List ℚ} {e : Scored} :
    e ∈ entries xb q ↔ ∃ i < xb.length, (((dot q (xb.getD i []) : ℚ), i) : Scored) = e := by
  rw [entries, List.mem_map]
  exact exists_congr fun i => and_congr_left fun _ => List.mem_range

/-! ## The loops -/

variable {argpartition}

theorem mul_lt_of_mem_pyRange {n step m : Nat} (positive : 1 ≤ step)
    (below : m < (n + step - 1) / step) : m * step < n := by
  have le := (Nat.le_div_iff_mul_le positive).mp below
  rw [Nat.succ_mul] at le
  omega

theorem le_count_mul {n step : Nat} (positive : 1 ≤ step) : n ≤ (n + step - 1) / step * step := by
  have split := Nat.div_add_mod (n + step - 1) step
  have small := Nat.mod_lt (n + step - 1) positive
  rw [Nat.mul_comm] at split
  omega

/-- **The batches of a chunk merge every row once.** -/
theorem mergeChunk_eq (queries : List (List ℚ)) (k : Nat) {batch : Nat} (c0 : Nat) (block : List (List ℚ))
    (positive : 1 ≤ batch) (g : List ℚ → List Scored) :
    mergeChunk argpartition queries k batch c0 block (queries.map g) =
      queries.map fun q => mergeRow argpartition k c0 (g q) (block.map (dot q)) := by
  have part (i : Nat) : List.zipWith (mergeRow argpartition k c0) (((queries.map g).drop i).take batch)
      (scores ((queries.drop i).take batch) block) =
      ((queries.map fun q => mergeRow argpartition k c0 (g q) (block.map (dot q))).drop i).take batch := by
    rw [← List.map_drop, ← List.map_take, scores, List.zipWith_map, List.zipWith_self, List.map_take,
      List.map_drop]
  have upTo (m : Nat) (inside : m ≤ (queries.length + batch - 1) / batch) :
      ((List.range m).map (· * batch)).foldl (fun rows i =>
        rows.take i ++ List.zipWith (mergeRow argpartition k c0) ((rows.drop i).take batch)
          (scores ((queries.drop i).take batch) block) ++ rows.drop (i + batch)) (queries.map g) =
        (queries.map fun q => mergeRow argpartition k c0 (g q) (block.map (dot q))).take (m * batch) ++
          (queries.map g).drop (m * batch) := by
    induction m with
    | zero => rw [Nat.zero_mul, List.take_zero, List.drop_zero]; rfl
    | succ m ih =>
        have below := mul_lt_of_mem_pyRange positive inside
        have length : ((queries.map fun q =>
            mergeRow argpartition k c0 (g q) (block.map (dot q))).take (m * batch)).length = m * batch := by
          rw [List.length_take, List.length_map]
          omega
        rw [List.range_succ, List.map_append, List.foldl_append, ih (Nat.le_of_succ_le inside),
          List.map_singleton, List.foldl_cons, List.foldl_nil, List.take_left' length,
          List.drop_left' length, ← List.drop_drop, List.drop_left' length, List.drop_drop, part,
          Nat.succ_mul, List.take_add]
  have past : queries.length ≤ (queries.length + batch - 1) / batch * batch := le_count_mul positive
  rw [mergeChunk, pyRange, upTo _ le_rfl, List.drop_eq_nil_of_le ((List.length_map _).trans_le past),
    List.append_nil, List.take_of_length_le ((List.length_map _).trans_le past)]

/-- What all the chunks offer to a query. -/
def selected (argpartition : List ℚ → Nat → List Nat) (xb : List (List ℚ)) (k chunk : Nat) (q : List ℚ) :
    List Scored :=
  (pyRange xb.length chunk).flatMap fun c0 =>
    offered argpartition k c0 (((xb.drop c0).take chunk).map (dot q))

/-- A place of a chunk, among the rows. -/
theorem getD_chunk {xb : List (List ℚ)} {q : List ℚ} {chunk c0 j : Nat}
    (inside : j < min chunk (xb.length - c0)) :
    (((xb.drop c0).take chunk).map (dot q)).getD j 0 = dot q (xb.getD (j + c0) []) := by
  rw [List.getD_eq_getElem _ _ (by rwa [List.length_map, List.length_take, List.length_drop]),
    List.getElem_map, List.getElem_take, List.getElem_drop, List.getD_eq_getElem _ _ (by omega)]
  simp only [Nat.add_comm]

theorem getD_neg (sc : List ℚ) (j : Nat) : (sc.map (- ·)).getD j 0 = -sc.getD j 0 := by
  rw [← neg_zero, List.getD_map, neg_zero]

section Offered

variable (lawful : Lawful argpartition)
include lawful

theorem mem_part {sc : List ℚ} {k j : Nat} (mem : j ∈
    (argpartition (sc.map (- ·)) (min k sc.length - 1)).take (min k sc.length)) : j < sc.length := by
  rcases Nat.eq_zero_or_pos sc.length with empty | positive
  · rw [empty, Nat.min_zero, List.take_zero] at mem
    cases mem
  · have inside : min k sc.length - 1 < (sc.map (- ·)).length := by
      rw [List.length_map]
      omega
    have place := (lawful.perm _ _ inside).mem_iff.mp (List.mem_of_mem_take mem)
    rwa [List.mem_range, List.length_map] at place

theorem nodup_part (sc : List ℚ) (k : Nat) :
    ((argpartition (sc.map (- ·)) (min k sc.length - 1)).take (min k sc.length)).Nodup := by
  rcases Nat.eq_zero_or_pos sc.length with empty | positive
  · rw [empty, Nat.min_zero, List.take_zero]
    exact List.nodup_nil
  · have inside : min k sc.length - 1 < (sc.map (- ·)).length := by
      rw [List.length_map]
      omega
    exact ((lawful.perm _ _ inside).nodup_iff.mpr List.nodup_range).sublist (List.take_sublist ..)

/-- A chunk offers rows of its own, with their scores. -/
theorem of_mem_offered {xb : List (List ℚ)} {q : List ℚ} {k chunk c : Nat} {e : Scored}
    (mem : e ∈ offered argpartition k (c * chunk) (((xb.drop (c * chunk)).take chunk).map (dot q))) :
    ∃ i < xb.length, i / chunk = c ∧ (((dot q (xb.getD i []) : ℚ), i) : Scored) = e := by
  obtain ⟨j, place, rfl⟩ := List.mem_map.mp mem
  have inside := mem_part lawful place
  rw [List.length_map, List.length_take, List.length_drop] at inside
  have in_chunk : j < chunk := by omega
  refine ⟨j + c * chunk, by omega, ?_, ?_⟩
  · rw [Nat.add_mul_div_right _ _ (Nat.zero_lt_of_lt in_chunk), Nat.div_eq_of_lt in_chunk, Nat.zero_add]
  · rw [getD_chunk inside]

/-- Only the part that was kept of its own chunk offers a row. -/
theorem part_of_mem_selected {xb : List (List ℚ)} {q : List ℚ} {k chunk i : Nat} {v : WithBot ℚ}
    (mem : (v, i) ∈ selected argpartition xb k chunk q) :
    ∃ sc, sc = ((xb.drop (i / chunk * chunk)).take chunk).map (dot q) ∧
      i % chunk ∈ (argpartition (sc.map (- ·)) (min k sc.length - 1)).take (min k sc.length) := by
  rw [selected, pyRange, List.flatMap_map] at mem
  obtain ⟨c, -, offer⟩ := List.mem_flatMap.mp mem
  obtain ⟨j, place, same⟩ := List.mem_map.mp offer
  have inside := mem_part lawful place
  rw [List.length_map, List.length_take, List.length_drop] at inside
  have in_chunk : j < chunk := by omega
  have id : j + c * chunk = i := congrArg Prod.snd same
  have home : i / chunk = c := by
    rw [← id, Nat.add_mul_div_right _ _ (Nat.zero_lt_of_lt in_chunk), Nat.div_eq_of_lt in_chunk,
      Nat.zero_add]
  have rest : i % chunk = j := by
    rw [← id, Nat.add_mul_mod_self_right, Nat.mod_eq_of_lt in_chunk]
  rw [home, rest]
  exact ⟨_, rfl, place⟩

theorem nodup_selected (xb : List (List ℚ)) (k chunk : Nat) (q : List ℚ) :
    (selected argpartition xb k chunk q).Nodup := by
  rw [selected, pyRange, List.flatMap_map]
  refine List.nodup_flatMap.mpr ⟨fun c _ => ?_, ?_⟩
  · exact (nodup_part lawful _ k).map fun i j same => by
      have ids := congrArg Prod.snd same
      exact Nat.add_right_cancel ids
  · refine List.nodup_range.imp fun {c c'} other => ?_
    intro e mem mem'
    obtain ⟨i, -, home, rfl⟩ := of_mem_offered lawful mem
    obtain ⟨i', -, home', same⟩ := of_mem_offered lawful mem'
    have ids : i' = i := congrArg Prod.snd same
    exact other (home.symm.trans (ids ▸ home'))

end Offered

/-- The row of a query after the chunks `cs`. -/
theorem foldl_mergeRow {k : Nat} {sc : Nat → List ℚ} {cs : List Nat} {seen : List Scored}
    (nodup : (seen ++ cs.flatMap fun c0 => offered argpartition k c0 (sc c0)).Nodup)
    (real : ∀ e ∈ seen ++ cs.flatMap (fun c0 => offered argpartition k c0 (sc c0)),
      before e sentinel = true) :
    cs.foldl (fun row c0 => mergeRow argpartition k c0 row (sc c0))
        (BestK.best before k seen ++ List.replicate (k - seen.length) sentinel) =
      BestK.best before k (seen ++ cs.flatMap fun c0 => offered argpartition k c0 (sc c0)) ++
        List.replicate (k - (seen ++ cs.flatMap fun c0 => offered argpartition k c0 (sc c0)).length)
          sentinel := by
  induction cs generalizing seen with
  | nil => rw [List.flatMap_nil, List.append_nil, List.foldl_nil]
  | cons c0 rest ih =>
      rw [List.flatMap_cons, ← List.append_assoc] at nodup real ⊢
      have step : mergeRow argpartition k c0
          (BestK.best before k seen ++ List.replicate (k - seen.length) sentinel) (sc c0) =
          BestK.best before k (seen ++ offered argpartition k c0 (sc c0)) ++
            List.replicate (k - (seen ++ offered argpartition k c0 (sc c0)).length) sentinel :=
        BestK.best_padded before_linear (nodup.sublist (List.sublist_append_left _ _))
          fun e mem => real e (List.mem_append_left _ mem)
      rw [List.foldl_cons, step]
      exact ih nodup real

/-- The queries do not interact. -/
theorem exactTopk_eq_map (xb queries : List (List ℚ)) (k : Nat) {batch : Nat} (chunk : Nat)
    (positive : 1 ≤ batch) :
    exactTopk argpartition xb queries k batch chunk = queries.map fun q =>
      (pyRange xb.length chunk).foldl (fun row c0 =>
        mergeRow argpartition (min k xb.length) c0 row (((xb.drop c0).take chunk).map (dot q)))
        (List.replicate (min k xb.length) sentinel) := by
  have chunks (cs : List Nat) (g : List ℚ → List Scored) :
      cs.foldl (fun rows c0 => mergeChunk argpartition queries (min k xb.length) batch c0
        ((xb.drop c0).take chunk) rows) (queries.map g) =
      queries.map fun q => cs.foldl (fun row c0 =>
        mergeRow argpartition (min k xb.length) c0 row (((xb.drop c0).take chunk).map (dot q))) (g q) := by
    induction cs generalizing g with
    | nil => rfl
    | cons c0 rest ih => rw [List.foldl_cons, mergeChunk_eq _ _ _ _ positive, ih]; rfl
  have start : List.replicate queries.length (List.replicate (min k xb.length) sentinel) =
      queries.map fun _ => List.replicate (min k xb.length) sentinel := List.map_const'.symm
  rw [exactTopk, start]
  exact chunks _ _

section Exact

variable (lawful : Lawful argpartition) {xb queries : List (List ℚ)} {q : List ℚ} {k batch chunk : Nat}
include lawful

/-- **Every query ends with the best of what the chunks offered.** -/
theorem exactTopk_eq (positive : 1 ≤ batch) :
    exactTopk argpartition xb queries k batch chunk = queries.map fun q =>
      BestK.best before (min k xb.length) (selected argpartition xb (min k xb.length) chunk q) ++
        List.replicate (min k xb.length - (selected argpartition xb (min k xb.length) chunk q).length)
          sentinel := by
  rw [exactTopk_eq_map _ _ _ _ positive]
  refine List.map_congr_left fun q _ => ?_
  have start : List.replicate (min k xb.length) sentinel =
      BestK.best before (min k xb.length) [] ++
        List.replicate (min k xb.length - ([] : List Scored).length) sentinel := by
    rw [BestK.best, List.mergeSort_nil, List.take_nil]
    rfl
  rw [start]
  refine foldl_mergeRow (nodup_selected lawful xb _ chunk q) fun e mem => ?_
  obtain ⟨c0, -, offer⟩ := List.mem_flatMap.mp mem
  obtain ⟨j, -, rfl⟩ := List.mem_map.mp offer
  exact before_sentinel _ _

theorem sub_selected {e : Scored} (mem : e ∈ selected argpartition xb k chunk q) :
    e ∈ entries xb q := by
  rw [selected, pyRange, List.flatMap_map] at mem
  obtain ⟨c, -, offer⟩ := List.mem_flatMap.mp mem
  obtain ⟨i, inside, -, same⟩ := of_mem_offered lawful offer
  exact mem_entries.mpr ⟨i, inside, same⟩

/-- A row whose chunk has at most `k` rows that score as high is offered. -/
theorem mem_selected (k_pos : 1 ≤ k) (positive : 1 ≤ chunk) {r : Nat} (inside : r < xb.length)
    (few : ((List.range xb.length).filter fun j =>
      j / chunk = r / chunk ∧ dot q (xb.getD r []) ≤ dot q (xb.getD j [])).length ≤ k) :
    (((dot q (xb.getD r []) : ℚ), r) : Scored) ∈ selected argpartition xb k chunk q := by
  have start : r / chunk * chunk ≤ r := Nat.div_mul_le_self r chunk
  have split : r % chunk + r / chunk * chunk = r := Nat.mod_add_div' r chunk
  have in_chunk : r % chunk < min chunk (xb.length - r / chunk * chunk) :=
    lt_min (Nat.mod_lt _ positive) (by omega)
  have size : (((xb.drop (r / chunk * chunk)).take chunk).map (dot q)).length =
      min chunk (xb.length - r / chunk * chunk) := by
    rw [List.length_map, List.length_take, List.length_drop]
  have score {j : Nat} (inside : j < min chunk (xb.length - r / chunk * chunk)) :=
    getD_chunk (q := q) inside
  rw [selected, pyRange, List.flatMap_map]
  have home : r / chunk < (xb.length + chunk - 1) / chunk := by
    rw [Nat.div_lt_iff_lt_mul positive]
    exact inside.trans_le (le_count_mul positive)
  refine List.mem_flatMap.mpr ⟨r / chunk, List.mem_range.mpr home, ?_⟩
  generalize ((xb.drop (r / chunk * chunk)).take chunk).map (dot q) = sc at size score
  have kth : min k sc.length - 1 < (sc.map (- ·)).length := by
    rw [List.length_map]
    omega
  have kk : min k sc.length - 1 + 1 = min k sc.length := by omega
  have perm := lawful.perm _ _ kth
  have least := lawful.least _ _ kth
  rw [kk] at least
  rw [List.length_map] at perm
  suffices kept : r % chunk ∈ (argpartition (sc.map (- ·)) (min k sc.length - 1)).take (min k sc.length) by
    refine List.mem_map.mpr ⟨r % chunk, kept, ?_⟩
    rw [score in_chunk, split]
  by_contra lost
  have back : r % chunk ∈ (argpartition (sc.map (- ·)) (min k sc.length - 1)).drop (min k sc.length) := by
    have place := perm.mem_iff.mpr (List.mem_range.mpr (size ▸ in_chunk))
    rw [← List.take_append_drop (min k sc.length) (argpartition _ _)] at place
    exact (List.mem_append.mp place).resolve_left lost
  -- with the row that is left out, one more than `k` score as high
  have others : ∀ j ∈ r % chunk ::
      (argpartition (sc.map (- ·)) (min k sc.length - 1)).take (min k sc.length),
      j < sc.length ∧ sc.getD (r % chunk) 0 ≤ sc.getD j 0 := by
    intro j mem
    rcases List.mem_cons.mp mem with rfl | front
    · exact ⟨size ▸ in_chunk, le_rfl⟩
    · have score_le := least j front _ back
      rw [getD_neg, getD_neg, neg_le_neg_iff] at score_le
      exact ⟨List.mem_range.mp (perm.mem_iff.mp (List.mem_of_mem_take front)), score_le⟩
  have nodup : ((r % chunk :: (argpartition (sc.map (- ·)) (min k sc.length - 1)).take
      (min k sc.length)).map (· + r / chunk * chunk)).Nodup := by
    refine List.Nodup.map (fun i j same => Nat.add_right_cancel same) (List.nodup_cons.mpr ⟨lost, ?_⟩)
    exact (perm.nodup_iff.mpr List.nodup_range).sublist (List.take_sublist ..)
  have sub : ((r % chunk :: (argpartition (sc.map (- ·)) (min k sc.length - 1)).take
      (min k sc.length)).map (· + r / chunk * chunk)) ⊆ (List.range xb.length).filter fun j =>
        j / chunk = r / chunk ∧ dot q (xb.getD r []) ≤ dot q (xb.getD j []) := by
    intro i mem
    obtain ⟨j, place, rfl⟩ := List.mem_map.mp mem
    obtain ⟨j_lt, score_le⟩ := others j place
    rw [size] at j_lt
    rw [score in_chunk, score j_lt, split] at score_le
    rw [List.mem_filter, List.mem_range, decide_eq_true_eq]
    refine ⟨by omega, ?_, score_le⟩
    rw [Nat.add_mul_div_right _ _ positive, Nat.div_eq_of_lt (by omega), Nat.zero_add]
  have more := (List.subperm_of_subset nodup sub).length_le
  have part_length : (argpartition (sc.map (- ·)) (min k sc.length - 1)).length = sc.length :=
    perm.length_eq.trans List.length_range
  have back_some := List.length_pos_of_mem back
  rw [List.length_drop, part_length] at back_some
  rw [List.length_map, List.length_cons, List.length_take, part_length] at more
  omega

end Exact

/-! ## The other choice among equals -/

/-- `argpartition` by a sort that puts the later of two equals first. -/
def reversed (xs : List ℚ) (_ : Nat) : List Nat :=
  (List.range xs.length).mergeSort fun a b =>
    decide (xs.getD a 0 < xs.getD b 0 ∨ xs.getD a 0 = xs.getD b 0 ∧ b ≤ a)

theorem reversed_linear (xs : List ℚ) : BestK.Linear fun a b : Nat =>
    decide (xs.getD a 0 < xs.getD b 0 ∨ xs.getD a 0 = xs.getD b 0 ∧ b ≤ a) where
  trans := by
    intro a b c ab bc
    rw [decide_eq_true_eq] at *
    rcases ab with less | ⟨same, le⟩ <;> rcases bc with less' | ⟨same', le'⟩
    · exact .inl (less.trans less')
    · exact .inl (same' ▸ less)
    · exact .inl (same ▸ less')
    · exact .inr ⟨same.trans same', le'.trans le⟩
  total := by
    intro a b
    rw [Bool.or_eq_true, decide_eq_true_eq, decide_eq_true_eq]
    rcases lt_trichotomy (xs.getD a 0) (xs.getD b 0) with less | same | more
    · exact .inl (.inl less)
    · exact (Nat.le_total b a).imp (fun le => .inr ⟨same, le⟩) fun le => .inr ⟨same.symm, le⟩
    · exact .inr (.inl more)
  antisymm := by
    intro a b ab ba
    rw [decide_eq_true_eq] at *
    rcases ab with less | ⟨same, le⟩ <;> rcases ba with less' | ⟨same', le'⟩
    · exact absurd less' less.le.not_gt
    · exact absurd same'.symm less.ne
    · exact absurd same.symm less'.ne
    · exact le'.antisymm le

theorem lawful_reversed : Lawful reversed where
  perm _ _ _ := List.mergeSort_perm _ _
  least xs kth _ a front b back := by
    have in_order := BestK.sorted (reversed_linear xs) (List.range xs.length)
    rw [← List.take_append_drop (kth + 1) (List.mergeSort _ _)] at in_order
    have le := (List.pairwise_append.mp in_order).2.2 a front b back
    rw [decide_eq_true_eq] at le
    exact le.elim le_of_lt fun both => both.1.le

/-- **Where a tie does not fit, `reversed` leaves out a row of the true top-k.** -/
theorem reversed_loses {xb : List (List ℚ)} {q : List ℚ} {k chunk : Nat}
    (positive : 1 ≤ chunk) (few : k ≤ xb.length) (unfit : ¬TiesFit xb k chunk q) :
    ∃ e ∈ truth xb k q, e ∉ selected reversed xb k chunk q := by
  obtain ⟨r, unfit⟩ := not_forall.mp unfit
  obtain ⟨inside, unfit⟩ := Classical.not_imp.mp unfit
  obtain ⟨ranked, many⟩ := Classical.not_imp.mp unfit
  by_contra none_lost
  have kept {e : Scored} (mem : e ∈ truth xb k q) : e ∈ selected reversed xb k chunk q := by
    by_contra lost
    exact none_lost ⟨e, mem, lost⟩
  have entry (i : Nat) (i_lt : i < xb.length) :
      (((dot q (xb.getD i []) : ℚ), i) : Scored) ∈ entries xb q := mem_entries.mpr ⟨i, i_lt, rfl⟩
  have r_best : (((dot q (xb.getD r []) : ℚ), r) : Scored) ∈ truth xb k q := by
    rw [truth, Nat.min_eq_left few]
    exact (BestK.mem_best_iff before_linear (nodup_entries xb q)).mpr ⟨entry r inside, ranked⟩
  obtain ⟨sc, same, r_part⟩ := part_of_mem_selected lawful_reversed (kept r_best)
  -- all that score as high are in the part that was kept
  have all : ((List.range xb.length).filter fun j =>
      j / chunk = r / chunk ∧ dot q (xb.getD r []) ≤ dot q (xb.getD j [])).map (· % chunk) ⊆
      (reversed (sc.map (- ·)) (min k sc.length - 1)).take (min k sc.length) := by
    intro j mem
    obtain ⟨i, place, rfl⟩ := List.mem_map.mp mem
    rw [List.mem_filter, List.mem_range, decide_eq_true_eq] at place
    obtain ⟨i_lt, home, score_le⟩ := place
    by_cases better : before (((dot q (xb.getD i []) : ℚ), i) : Scored) ((dot q (xb.getD r []) : ℚ), r) = true
    · have i_best := BestK.mem_best_of_le before_linear (nodup_entries xb q) r_best (entry i i_lt) better
      obtain ⟨sc', same', i_part⟩ := part_of_mem_selected lawful_reversed (kept i_best)
      rw [home, ← same] at same'
      exact same' ▸ i_part
    · rw [before, decide_eq_true_eq, WithBot.coe_lt_coe, not_or, not_lt, not_and, WithBot.coe_inj] at better
      have equal := better.1.antisymm score_le
      have later : r < i := Nat.lt_of_not_le (better.2 equal)
      have score {j : Nat} (j_lt : j < xb.length) (j_home : j / chunk = r / chunk) :
          j % chunk < sc.length ∧ sc.getD (j % chunk) 0 = dot q (xb.getD j []) := by
        have split := Nat.mod_add_div' j chunk
        rw [j_home] at split
        have small : j % chunk < min chunk (xb.length - r / chunk * chunk) :=
          lt_min (Nat.mod_lt _ positive) (by omega)
        rw [same, getD_chunk small, split, List.length_map, List.length_take, List.length_drop]
        exact ⟨small, rfl⟩
      refine BestK.mem_best_of_le (reversed_linear (sc.map (- ·))) List.nodup_range r_part ?_ ?_
      · rw [List.mem_range, List.length_map]
        exact (score i_lt home).1
      · rw [decide_eq_true_eq, getD_neg, getD_neg, (score i_lt home).2, (score inside rfl).2, equal]
        have i_split := Nat.mod_add_div' i chunk
        have r_split := Nat.mod_add_div' r chunk
        rw [home] at i_split
        exact .inr ⟨rfl, by omega⟩
  have nodup : (((List.range xb.length).filter fun j =>
      j / chunk = r / chunk ∧ dot q (xb.getD r []) ≤ dot q (xb.getD j [])).map (· % chunk)).Nodup := by
    refine List.Nodup.map_on ?_ (List.nodup_range.filter _)
    intro i mem i' mem' rest
    rw [List.mem_filter, decide_eq_true_eq] at mem mem'
    rw [← Nat.div_add_mod i chunk, ← Nat.div_add_mod i' chunk, mem.2.1, mem'.2.1, rest]
  have fewer := (List.subperm_of_subset nodup all).length_le
  rw [List.length_map, List.length_take] at fewer
  omega

/-! ## Exactness -/

theorem tiesFit_min {xb : List (List ℚ)} {q : List ℚ} {k chunk : Nat} :
    TiesFit xb (min k xb.length) chunk q ↔ TiesFit xb k chunk q := by
  have size : (entries xb q).length = xb.length := by rw [entries, List.length_map, List.length_range]
  have all (p : Scored → Bool) : (entries xb q).countP p ≤ xb.length := size ▸ List.countP_le_length
  have rows (p : Nat → Bool) : ((List.range xb.length).filter p).length ≤ xb.length :=
    (List.length_filter_le _ _).trans List.length_range.le
  simp only [TiesFit, Nat.le_min, all, rows, and_true]

theorem reversed_ne {xb queries : List (List ℚ)} {q : List ℚ} {k batch chunk : Nat}
    (some_batch : 1 ≤ batch) (some_chunk : 1 ≤ chunk) (mem : q ∈ queries) (unfit : ¬TiesFit xb k chunk q) :
    exactTopk reversed xb queries k batch chunk ≠ queries.map (truth xb k) := by
  intro run
  rw [← tiesFit_min] at unfit
  obtain ⟨e, best, lost⟩ := reversed_loses some_chunk (Nat.min_le_right ..) unfit
  rw [exactTopk_eq lawful_reversed some_batch] at run
  have row := List.map_inj_left.mp run q mem
  rw [truth, Nat.min_assoc, Nat.min_self, ← truth, ← row] at best
  rcases List.mem_append.mp best with chosen | pad
  · exact lost (BestK.mem_of_mem_best chosen)
  · obtain ⟨i, -, rfl⟩ := mem_entries.mp (BestK.mem_of_mem_best (row ▸ best))
    exact absurd (congrArg Prod.fst (List.eq_of_mem_replicate pad)) WithBot.coe_ne_bot

/-- **The streaming top-k is exact, whatever `argpartition` picks among equals, exactly when no
row of a true top-k shares its chunk with too many rows that score as high.** -/
theorem exactTopk_iff {xb queries : List (List ℚ)} {k batch chunk : Nat} (k_pos : 1 ≤ k)
    (some_batch : 1 ≤ batch) (some_chunk : 1 ≤ chunk) :
    (∀ argpartition, Lawful argpartition →
      exactTopk argpartition xb queries k batch chunk = queries.map (truth xb k)) ↔
    ∀ q ∈ queries, TiesFit xb k chunk q := by
  rcases Nat.eq_zero_or_pos xb.length with empty | rows
  · have no_chunks : pyRange 0 chunk = [] := by
      rw [pyRange, Nat.div_eq_of_lt (by omega)]
      rfl
    refine iff_of_true (fun argpartition _ => ?_) fun q _ r inside => absurd inside (by omega)
    rw [exactTopk_eq_map _ _ _ _ some_batch, empty, no_chunks]
    exact List.map_congr_left fun q _ => by rw [truth, empty, Nat.min_zero]; rfl
  have some_row : 1 ≤ min k xb.length := le_min k_pos rows
  constructor
  · intro always q mem
    by_contra unfit
    exact reversed_ne some_batch some_chunk mem unfit (always _ lawful_reversed)
  · intro fit argpartition lawful
    rw [exactTopk_eq lawful some_batch]
    refine List.map_congr_left fun q mem => ?_
    have same : BestK.best before (min k xb.length)
        (selected argpartition xb (min k xb.length) chunk q) = truth xb k q := by
      refine BestK.best_selection before_linear (nodup_entries xb q)
        (nodup_selected lawful xb _ chunk q) (fun e mem => sub_selected lawful mem) fun e best => ?_
      obtain ⟨place, few⟩ := (BestK.mem_best_iff before_linear (nodup_entries xb q)).mp best
      obtain ⟨r, inside, rfl⟩ := mem_entries.mp place
      exact mem_selected lawful some_row some_chunk inside (tiesFit_min.mpr (fit q mem) r inside few)
    have length : (truth xb k q).length = min k xb.length := by
      rw [truth, BestK.best, List.length_take, List.length_mergeSort, entries, List.length_map,
        List.length_range, Nat.min_assoc, Nat.min_self]
    have enough : (BestK.best before (min k xb.length)
        (selected argpartition xb (min k xb.length) chunk q)).length ≤
        (selected argpartition xb (min k xb.length) chunk q).length := by
      rw [BestK.best, List.length_take, List.length_mergeSort]
      exact Nat.min_le_right ..
    rw [same, length] at enough
    rw [same, Nat.sub_eq_zero_of_le enough]
    exact List.append_nil _

/-- Two chunks, and a tie across them. -/
theorem exactTopk_iff_tie : exactTopk reversed [[1], [2], [2], [0]] [[1]] 2 1 2 =
    [truth [[1], [2], [2], [0]] 2 [1]] :=
  (exactTopk_iff (by decide) (by decide) (by decide)).mpr (by decide +kernel) _ lawful_reversed

/-- Two best rows in one chunk that are equal, 2 and 3: row 3 may be returned. -/
theorem exactTopk_ties_lost : ¬∀ (xb queries : List (List ℚ)) (k batch chunk : Nat) argpartition,
    Lawful argpartition → 1 ≤ k → 1 ≤ batch → 1 ≤ chunk →
      exactTopk argpartition xb queries k batch chunk = queries.map (truth xb k) := by
  intro always
  exact reversed_ne le_rfl (by decide) (List.mem_singleton.mpr rfl) (by decide +kernel)
    (always [[0], [1], [2], [2], [0]] [[1]] 1 1 5 reversed lawful_reversed le_rfl le_rfl (by decide))

end HybridSearch.Rerank
