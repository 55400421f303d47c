/-
# Tuner.FusionAgreement -- the tuner and the broker fuse alike

Every fusion is the ranking (`Theory.Ranking`) of the union of the two candidate
lists by one score: the broker's by id, the tuner's by the key of the id's
decimal string.  The scores of the tuner are the sums of `1 / (k + rank)` and the
weighted sums of the normalised scores with their floors.  The broker's weighted
scores are the same; its reciprocals wrap where `k + rank` does not fit an `int`.

* `reciprocalRank_ranks`, `rrf_ranks`, `rrfFast_ranks`: the three reciprocal-rank
  fusions, and the same for the weighted ones;
* `fusions_agree`: the three programs agree, at every depth and on every method,
  exactly when no `k + rank` reaches `2 ^ 31`.
-/
import Mathlib
import HybridSearch.Broker.Fusion
import HybridSearch.Tuner.Fusion

namespace HybridSearch.Tuner

open HybridSearch.Theory HybridSearch.Theory.Ranking HybridSearch.Broker.Fusion

set_option autoImplicit false

/-! ## Shares of a ranked list -/

section Shares

variable {ι ι' β K : Type} [DecidableEq ι] [DecidableEq ι'] [Field K]

/-- What a ranked list gives to an item when rank `n` is worth `worth n`. -/
def share (worth : ℕ → K) (ids : List ι) (i : ι) : K :=
  if i ∈ ids then worth (ids.idxOf i + 1) else 0

def entriesFrom (worth : ℕ → β) (rank : ℕ) (ids : List ι) : List (ι × β) :=
  (ids.zipIdx rank).map fun entry => (entry.1, worth entry.2)

/-- The items of either list. -/
def pool (ids ids' : List ι) : List ι := (ids ++ ids').dedup

theorem mem_pool {ids ids' : List ι} {i : ι} : i ∈ pool ids ids' ↔ i ∈ ids ∨ i ∈ ids' := by
  rw [pool, List.mem_dedup, List.mem_append]

theorem pool_map {ids ids' : List ι} {rename : ι → ι'} (injective : Function.Injective rename) :
    (pool ids ids').map rename = pool (ids.map rename) (ids'.map rename) := by
  rw [pool, pool, ← List.map_append, List.dedup_map_of_injective injective]

omit [DecidableEq ι] in
theorem keys_entriesFrom (worth : ℕ → β) (rank : ℕ) (ids : List ι) :
    Dict.keys (entriesFrom worth rank ids) = ids := by
  rw [Dict.keys, entriesFrom, List.map_map]
  exact List.zipIdx_map_fst rank ids

theorem mem_entriesFrom (worth : ℕ → β) (rank : ℕ) {ids : List ι} {i : ι} (mem : i ∈ ids) :
    (i, worth (ids.idxOf i + rank)) ∈ entriesFrom worth rank ids := by
  rw [entriesFrom, List.mem_map]
  refine ⟨(i, ids.idxOf i + rank), ?_, rfl⟩
  rw [List.mem_zipIdx_iff_le_and_getElem?_sub, Nat.add_sub_cancel]
  exact ⟨Nat.le_add_left .., List.getElem?_idxOf mem⟩

theorem lookup_entriesFrom (worth : ℕ → β) (rank : ℕ) {ids : List ι} (distinct : ids.Nodup) (i : ι) :
    (entriesFrom worth rank ids).lookup i =
      if i ∈ ids then some (worth (ids.idxOf i + rank)) else none := by
  split_ifs with mem
  · apply Dict.lookup_of_mem
    · rw [keys_entriesFrom]
      exact distinct
    · exact mem_entriesFrom worth rank mem
  · apply Dict.lookup_eq_none
    rw [keys_entriesFrom]
    exact mem

theorem sum_entries (worth : ℕ → K) {ids : List ι} (distinct : ids.Nodup) (i : ι) :
    (((entriesFrom worth 1 ids).filter (·.1 = i)).map Prod.snd).sum = share worth ids i := by
  rw [share]
  split_ifs with mem
  · apply Dict.sum_of_mem
    · rw [keys_entriesFrom]
      exact distinct
    · exact mem_entriesFrom worth 1 mem
  · apply Dict.sum_of_not_mem
    rw [keys_entriesFrom]
    exact mem

theorem share_map (worth : ℕ → K) (ids : List ι) {rename : ι → ι'}
    (injective : Function.Injective rename) (i : ι) :
    share worth (ids.map rename) (rename i) = share worth ids i := by
  have same : (ids.map rename).idxOf (rename i) = ids.idxOf i := by
    induction ids with
    | nil => rfl
    | cons a rest ih =>
        rw [List.map_cons, List.idxOf_cons, List.idxOf_cons, ih]
        by_cases here : a = i
        · rw [here, beq_self_eq_true, beq_self_eq_true]
        · rw [beq_eq_false_iff_ne.mpr here, beq_eq_false_iff_ne.mpr (injective.ne here)]
  rw [share, share, same]
  simp only [List.mem_map_of_injective injective]

theorem perm_of_lookups {dict : List (ι × K)} {items : List ι} {score : ι → K}
    (distinct : (Dict.keys dict).Nodup) (distinct_items : items.Nodup)
    (members : ∀ i, i ∈ Dict.keys dict ↔ i ∈ items)
    (values : ∀ i ∈ items, (dict.lookup i).getD 0 = score i) :
    dict.Perm (items.map fun i => (i, score i)) := by
  have listed : dict = (Dict.keys dict).map fun i => (i, score i) := by
    apply Dict.eq_map_keys distinct
    intro i mem
    obtain ⟨x, found⟩ := Option.isSome_iff_exists.mp (Dict.isSome_lookup_iff.mpr mem)
    have := values i ((members i).mp mem)
    rw [found, Option.getD_some] at this
    rw [found, this]
  rw [listed]
  exact ((List.perm_ext_iff_of_nodup distinct distinct_items).mpr members).map _

/-- **Two ranked lists accumulate to the sums of their shares.** -/
theorem accumulate_entries (worth : ℕ → K) {ids ids' : List ι} (distinct : ids.Nodup)
    (distinct' : ids'.Nodup) :
    (Dict.accumulate (Dict.accumulate [] (entriesFrom worth 1 ids)) (entriesFrom worth 1 ids')).Perm
      ((pool ids ids').map fun i => (i, share worth ids i + share worth ids' i)) := by
  apply perm_of_lookups
  · have empty : (Dict.keys ([] : List (ι × K))).Nodup := List.nodup_nil
    exact Dict.nodup_accumulate (Dict.nodup_accumulate empty _) _
  · exact List.nodup_dedup _
  · intro i
    rw [Dict.mem_keys_accumulate, Dict.mem_keys_accumulate, keys_entriesFrom, keys_entriesFrom,
      mem_pool, Dict.keys_nil]
    simp only [List.not_mem_nil, false_or]
  · intro i _
    rw [Dict.accumulate_getD, Dict.accumulate_getD, sum_entries worth distinct,
      sum_entries worth distinct', List.lookup_nil, Option.getD_none, zero_add]

end Shares

/-! ## The broker's reciprocal rank -/

variable {K : Type} [Field K] [LinearOrder K]

def ids (list : List (ScoredDoc K)) : List Nat := list.map ScoredDoc.docId

theorem firstSeen_of_nodup {seen : List Nat} {list : List (ScoredDoc K)}
    (distinct : (ids list).Nodup) (fresh : ∀ id ∈ ids list, id ∉ seen) :
    firstSeen seen list = list := by
  induction list generalizing seen with
  | nil => rfl
  | cons d rest ih =>
      rw [ids, List.map_cons, List.nodup_cons] at distinct
      rw [firstSeen, if_neg (fresh d.docId (List.mem_cons_self ..)), ih distinct.2]
      intro id mem
      rw [List.mem_cons, not_or]
      refine ⟨?_, fresh id (List.mem_cons_of_mem _ mem)⟩
      rintro rfl
      exact distinct.1 mem

theorem firstSeen_nil {list : List (ScoredDoc K)} (distinct : (ids list).Nodup) :
    firstSeen [] list = list :=
  firstSeen_of_nodup distinct fun _ _ => List.not_mem_nil

/-- What the broker gives to rank `n`: the `int` sum wraps. -/
def worth32 (k : Int) (n : ℕ) : K := 1 / (add32 k n : Int)

/-- What the tuner gives to rank `n`. -/
def worth (k : K) (n : ℕ) : K := 1 / (k + n)

theorem add32_of_lt {a b : Int} (nonneg : 0 ≤ a + b) (small : a + b < 2 ^ 31) :
    add32 a b = a + b := by
  rw [add32, Int.bmod_eq_of_le] <;> omega

theorem addRanks_eq (k : Int) {rank : ℕ} {acc : List (FusedDoc K)} {list : List (ScoredDoc K)}
    (small : rank + list.length < 2 ^ 31) :
    addRanks (.exact K) k rank acc list =
      Dict.accumulate acc (entriesFrom (worth32 k) (rank + 1) (ids list)) := by
  induction list generalizing rank acc with
  | nil => rfl
  | cons d rest ih =>
      rw [List.length_cons] at small
      have next : add32 (rank : Int) 1 = ((rank + 1 : ℕ) : Int) := by
        rw [add32_of_lt] <;> push_cast <;> omega
      rw [addRanks, next, ih (by omega)]
      rfl

omit [Field K] in
theorem compareRanking_isLE (a b : FusedDoc K) :
    (compareRanking a.2 a.1 b.2 b.1).isLE = true ↔ Before id a b := by
  rw [compareRanking, Before]
  rcases lt_trichotomy b.2 a.2 with higher | tied | lower
  · rw [compare_lt_iff_lt.mpr higher]
    exact ⟨fun _ => .inl higher, fun _ => rfl⟩
  · rw [compare_eq_iff_eq.mpr tied]
    simp only [Nat.isLE_compare, tied, lt_irrefl, id_eq, true_and, false_or]
  · rw [compare_gt_iff_gt.mpr lower]
    constructor
    · intro impossible
      cases impossible
    · rintro (higher | ⟨tied, _⟩)
      · exact absurd higher lower.asymm
      · exact absurd lower (tied ▸ lt_irrefl _)

omit [Field K] in
theorem sortRanking_ranks {docs : List (FusedDoc K)} {items : List Nat} {score : Nat → K}
    (entries : docs.Perm (items.map fun i => (i, score i))) :
    Ranks id items score (sortRanking docs) :=
  Ranks.of_mergeSort entries compareRanking_isLE

/-- **The broker ranks the union by its wrapped reciprocals.** -/
theorem reciprocalRank_ranks {lexical dense : List (ScoredDoc K)} {k : Int} (nonneg : 0 ≤ k)
    (lex_distinct : (ids lexical).Nodup) (dense_distinct : (ids dense).Nodup)
    (lex_count : lexical.length < 2 ^ 31) (dense_count : dense.length < 2 ^ 31) :
    ∃ out, reciprocalRank (.exact K) [lexical, dense] k = .ok out ∧
      Ranks id (pool (ids lexical) (ids dense))
        (fun i => share (worth32 k) (ids lexical) i + share (worth32 k) (ids dense) i) out := by
  refine ⟨_, if_neg (not_lt.mpr nonneg), sortRanking_ranks ?_⟩
  rw [List.foldl_cons, List.foldl_cons, List.foldl_nil, firstSeen_nil lex_distinct,
    firstSeen_nil dense_distinct, ← Nat.cast_zero, addRanks_eq k (by omega), addRanks_eq k (by omega)]
  exact accumulate_entries _ lex_distinct dense_distinct

/-! ## Decimal ids -/

theorem isDigit_repr (n : ℕ) : isDigit n.repr = true := by
  rw [isDigit, Nat.toList_repr, Bool.and_eq_true, Bool.not_eq_true', List.isEmpty_eq_false_iff,
    List.all_eq_true]
  exact ⟨Nat.toDigits_ne_nil, fun c mem => Nat.isDigit_of_mem_toDigits (by decide) (by decide) mem⟩

theorem docidKey_repr (n : ℕ) : docidKey n.repr = toLex (0, toLex (n, "")) := by
  rw [docidKey, if_pos (isDigit_repr n), Nat.toNat?_repr, Option.getD_some]

/-- **The key of a decimal id orders it as a number.** -/
theorem docidKey_le_iff (a b : ℕ) : docidKey a.repr ≤ docidKey b.repr ↔ a ≤ b := by
  rw [docidKey_repr, docidKey_repr, Prod.Lex.toLex_le_toLex, Prod.Lex.toLex_le_toLex]
  simp only [lt_irrefl, le_refl, and_true, true_and, false_or]
  exact le_iff_lt_or_eq.symm

theorem repr_injective : Function.Injective Nat.repr := fun _ _ => Nat.repr_inj.mp

theorem docidKey_told_apart {items : List ℕ} :
    ∀ d ∈ items.map Nat.repr, ∀ d' ∈ items.map Nat.repr, docidKey d = docidKey d' → d = d' := by
  intro d mem d' mem' same
  obtain ⟨n, _, rfl⟩ := List.mem_map.mp mem
  obtain ⟨n', _, rfl⟩ := List.mem_map.mp mem'
  have le := (docidKey_le_iff n n').mp same.le
  have ge := (docidKey_le_iff n' n).mp same.ge
  rw [le_antisymm le ge]

/-- The tuner's name of a fused document. -/
def named : List (FusedDoc K) → Ranking K := List.map (Prod.map Nat.repr id)

/-- The tuner's form of a retrieved list. -/
def decimal (list : List (ScoredDoc K)) : Ranking K := list.map fun d => (d.docId.repr, d.score)

theorem map_fst_decimal (list : List (ScoredDoc K)) :
    (decimal list).map Prod.fst = (ids list).map Nat.repr := by
  rw [decimal, ids, List.map_map, List.map_map]
  rfl

theorem map_snd_decimal (list : List (ScoredDoc K)) :
    (decimal list).map Prod.snd = list.map ScoredDoc.score := by
  rw [decimal, List.map_map]
  rfl

omit [Field K] in
/-- **A ranking by decimal ids is the ranking by ids.** -/
theorem eq_named {items : List ℕ} {items' : List String} {score : ℕ → K} {score' : String → K}
    {out : List (FusedDoc K)} {out' : Ranking K} (ranks : Ranks id items score out)
    (ranks' : Ranks docidKey items' score' out') (same_items : items'.Perm (items.map Nat.repr))
    (same_score : ∀ i ∈ items, score' i.repr = score i) : out' = named out := by
  have renamed : Ranks docidKey (items.map Nat.repr) score' (named out) :=
    ranks.map Nat.repr (fun i j le => (docidKey_le_iff i j).mpr le) same_score
  exact (renamed.unique ranks' same_items.symm (fun _ _ => rfl) docidKey_told_apart).symm

/-! ## The tuner's dictionaries -/

def cut {α : Type} : Option Int → List α → List α
  | none, list => list
  | some depth, list => list.take depth.toNat

theorem cut_sublist {α : Type} (depth : Option Int) (list : List α) : (cut depth list).Sublist list := by
  cases depth with
  | none => exact List.Sublist.refl list
  | some d => exact List.take_sublist _ list

theorem nodup_cut {depth : Option Int} {list : List (ScoredDoc K)} (distinct : (ids list).Nodup) :
    (ids (cut depth list)).Nodup :=
  distinct.sublist ((cut_sublist depth list).map _)

theorem truncate_decimal {depth : Option Int} (deep : ∀ d ∈ depth, 1 ≤ d) (list : List (ScoredDoc K)) :
    truncate (decimal list) depth = .ok (decimal (cut depth list)) := by
  cases depth with
  | none => rfl
  | some d =>
      have enough : ¬ d < 1 := not_lt.mpr (deep d rfl)
      rw [truncate, if_neg enough, decimal, decimal, cut, List.map_take]

omit [Field K] [LinearOrder K] in
theorem checkUnique_of_nodup {seen : List String} {r : Ranking K} (distinct : (r.map Prod.fst).Nodup)
    (fresh : ∀ d ∈ r.map Prod.fst, d ∉ seen) : checkUnique seen r = .ok () := by
  induction r generalizing seen with
  | nil => rfl
  | cons entry rest ih =>
      rw [List.map_cons, List.nodup_cons] at distinct
      rw [checkUnique, if_neg (fresh entry.1 (List.mem_cons_self ..))]
      apply ih distinct.2
      intro d mem
      rw [List.mem_cons, not_or]
      refine ⟨?_, fresh d (List.mem_cons_of_mem _ mem)⟩
      rintro rfl
      exact distinct.1 mem

theorem nodup_decimal {list : List (ScoredDoc K)} (distinct : (ids list).Nodup) :
    ((decimal list).map Prod.fst).Nodup := by
  rw [map_fst_decimal]
  exact distinct.map repr_injective

theorem checkUnique_decimal {list : List (ScoredDoc K)} (distinct : (ids list).Nodup) :
    checkUnique [] (decimal list) = .ok () :=
  checkUnique_of_nodup (nodup_decimal distinct) fun _ _ => List.not_mem_nil

omit [LinearOrder K] in
theorem addRanking_eq (k : K) (scores r : Ranking K) :
    addRanking k scores r =
      Dict.accumulate scores (entriesFrom (worth k) 1 (r.map Prod.fst)) := by
  rw [addRanking, Dict.accumulate, entriesFrom, List.zipIdx_map, List.map_map, List.foldl_map]
  rfl

variable [IsStrictOrderedRing K]

theorem sortFused_ranks {scores : Ranking K} {items : List String} {score : String → K}
    (entries : scores.Perm (items.map fun d => (d, score d))) :
    Ranks docidKey items score (sortFused scores none) := by
  apply Ranks.of_mergeSort entries
  intro a b
  rw [decide_eq_true_eq, Prod.Lex.toLex_le_toLex, neg_lt_neg_iff, neg_inj]
  rfl

/-- **The tuner ranks the union by its reciprocals.** -/
theorem rrf_ranks {lexical dense : List (ScoredDoc K)} {k : K} (nonneg : 0 ≤ k)
    {depth : Option Int} (deep : ∀ d ∈ depth, 1 ≤ d)
    (lex_distinct : (ids lexical).Nodup) (dense_distinct : (ids dense).Nodup) :
    ∃ out, rrf [decimal lexical, decimal dense] k depth none = .ok out ∧
      Ranks docidKey (pool ((ids (cut depth lexical)).map Nat.repr) ((ids (cut depth dense)).map Nat.repr))
        (fun d => share (worth k) ((ids (cut depth lexical)).map Nat.repr) d +
          share (worth k) ((ids (cut depth dense)).map Nat.repr) d) out := by
  have lex_cut : (ids (cut depth lexical)).Nodup := nodup_cut lex_distinct
  have dense_cut : (ids (cut depth dense)).Nodup := nodup_cut dense_distinct
  refine ⟨_, ?_, sortFused_ranks (accumulate_entries (worth k)
    (lex_cut.map repr_injective) (dense_cut.map repr_injective))⟩
  rw [rrf, if_neg (not_lt.mpr nonneg)]
  simp only [List.foldlM_cons, List.foldlM_nil, truncate_decimal deep, bind, Except.bind, pure,
    Except.pure, checkUnique_decimal lex_cut, checkUnique_decimal dense_cut, addRanking_eq,
    map_fst_decimal]

/-! ## Normalised scores -/

def tunerNorm : ScoreNormalization → Normalisation
  | .minMax => .minmax
  | .zScore => .zscore

omit [Field K] [IsStrictOrderedRing K] in
theorem foldl_min_le (scores : List K) (start : K) : scores.foldl min start ≤ start := by
  induction scores generalizing start with
  | nil => exact le_rfl
  | cons s rest ih => exact (ih _).trans (min_le_left _ _)

omit [Field K] [IsStrictOrderedRing K] in
theorem le_foldl_max (scores : List K) (start : K) : start ≤ scores.foldl max start := by
  induction scores generalizing start with
  | nil => exact le_rfl
  | cons s rest ih => exact (le_max_left _ _).trans (ih _)

theorem floatMax_le : floatMax K ≤ doubleMax K := by
  have one_le : (1 : K) ≤ 2 := one_le_two
  have low : (2 : K) ^ 971 ≤ 2 ^ 1023 := pow_le_pow_right₀ one_le (by norm_num)
  have float : (2 : K) ^ 128 ≤ 2 ^ 1023 := pow_le_pow_right₀ one_le (by norm_num)
  have twice : (2 : K) ^ 1024 = 2 ^ 1023 + 2 ^ 1023 := by rw [← two_mul, ← pow_succ']
  have positive : (0 : K) ≤ 2 ^ 104 := by positivity
  rw [floatMax, doubleMax, twice]
  calc (2 : K) ^ 128 - 2 ^ 104 ≤ 2 ^ 128 := sub_le_self _ positive
    _ ≤ 2 ^ 1023 := float
    _ ≤ 2 ^ 1023 + 2 ^ 1023 - 2 ^ 971 := le_sub_iff_add_le.mpr (add_le_add_right low _)

/-- The scores of a list are floats. -/
theorem score_bounds {list : List (ScoredDoc K)} :
    ∀ s ∈ list.map ScoredDoc.score, -doubleMax K ≤ s ∧ s ≤ doubleMax K := by
  intro s mem
  obtain ⟨d, _, rfl⟩ := List.mem_map.mp mem
  exact ⟨(neg_le_neg floatMax_le).trans d.finite.1, d.finite.2.trans floatMax_le⟩

theorem minMax_eq {scores : List K} (bounds : ∀ s ∈ scores, -doubleMax K ≤ s ∧ s ≤ doubleMax K)
    (sqrt : K → K) : minMax (.exact K) scores = normalise sqrt scores .minmax := by
  cases scores with
  | nil => simp [minMax, normalise]
  | cons s rest =>
      have s_bounds := bounds s (List.mem_cons_self ..)
      have least : (s :: rest).foldl min (doubleMax K) = rest.foldl min s := by
        rw [List.foldl_cons, min_eq_right s_bounds.2]
      have most : (s :: rest).foldl max (-doubleMax K) = rest.foldl max s := by
        rw [List.foldl_cons, max_eq_right s_bounds.1]
      have range : rest.foldl min s ≤ rest.foldl max s :=
        (foldl_min_le rest s).trans (le_foldl_max rest s)
      rw [minMax, least, most, normalise, List.min?_cons', List.max?_cons', Option.getD_some,
        Option.getD_some]
      simp only [Rounding.exact_apply]
      by_cases flat : rest.foldl max s - rest.foldl min s = 0
      · rw [if_pos flat, flat]
        simp only [gt_iff_lt, lt_irrefl, if_false, List.map_const']
      · rw [if_neg flat]
        have wide := lt_of_le_of_ne (sub_nonneg.mpr range) (Ne.symm flat)
        simp only [gt_iff_lt, wide, if_true]

/-- Without variance every score is the mean, whatever the root of 0 is. -/
theorem spread_pos {sqrt : K → K} (sqrt_pos : ∀ x, 0 < x → 0 < sqrt x) (scores : List K) (mean : K) :
    0 < sqrt ((scores.map fun x => (x - mean) ^ 2).sum / scores.length) ∨ ∀ s ∈ scores, s - mean = 0 := by
  by_cases flat : ∀ s ∈ scores, s - mean = 0
  · exact .inr flat
  · left
    obtain ⟨s, mem, off⟩ : ∃ s ∈ scores, s - mean ≠ 0 := by simpa using flat
    have var_pos : 0 < (scores.map fun x => (x - mean) ^ 2).sum := by
      refine lt_of_lt_of_le (pow_pos (abs_pos.mpr off) 2) ?_
      rw [sq_abs]
      apply List.single_le_sum
      · intro x x_mem
        obtain ⟨t, _, rfl⟩ := List.mem_map.mp x_mem
        exact sq_nonneg _
      · exact List.mem_map_of_mem (f := fun x => (x - mean) ^ 2) mem
    have count_pos : (0 : K) < scores.length :=
      Nat.cast_pos.mpr (List.length_pos_of_mem mem)
    exact sqrt_pos _ (div_pos var_pos count_pos)

theorem zScore_eq {sqrt : K → K} (sqrt_pos : ∀ x, 0 < x → 0 < sqrt x) (scores : List K) :
    zScore (.exact K) sqrt scores = normalise sqrt scores .zscore := by
  have total : scores.foldl (· + ·) 0 = scores.sum := List.sum_eq_foldl.symm
  have squares (mean : K) : scores.foldl (fun var s => var + (s - mean) * (s - mean)) 0 =
      (scores.map fun x => (x - mean) ^ 2).sum := by
    rw [List.sum_eq_foldl, List.foldl_map]
    simp only [pow_two]
  simp only [zScore, normalise, Rounding.exact_apply, total, squares]
  have spread := spread_pos sqrt_pos scores (scores.sum / scores.length)
  generalize scores.sum / (scores.length : K) = mean at spread ⊢
  generalize sqrt ((scores.map fun x => (x - mean) ^ 2).sum / scores.length) = sd at spread ⊢
  rcases spread with positive | flat
  · rw [if_neg positive.ne']
    simp only [gt_iff_lt, positive, if_true]
  · by_cases zero : sd = 0
    · rw [if_pos zero, zero]
      simp only [gt_iff_lt, lt_irrefl, if_false, List.map_const']
    · rw [if_neg zero]
      apply List.map_congr_left
      intro s mem
      rw [flat s mem, zero_div, ite_self]

/-- The normalised scores of a list, in the tuner's words. -/
def normOf (sqrt : K → K) (n : ScoreNormalization) (list : List (ScoredDoc K)) : List K :=
  normalise sqrt (list.map ScoredDoc.score) (tunerNorm n)

omit [IsStrictOrderedRing K] in
theorem length_normalise (sqrt : K → K) (s : List K) (m : Normalisation) :
    (normalise sqrt s m).length = s.length := by
  cases m <;> rw [normalise] <;> split_ifs <;> simp

omit [IsStrictOrderedRing K] in
theorem length_normOf (sqrt : K → K) (n : ScoreNormalization) (list : List (ScoredDoc K)) :
    (normOf sqrt n list).length = (ids list).length := by
  rw [normOf, length_normalise, ids, List.length_map, List.length_map]

/-- What a list gives to an item by the values of its own items: the least of them where the
item is missing. -/
def level {ι : Type} [DecidableEq ι] (ids : List ι) (values : List K) (i : ι) : K :=
  ((ids.zip values).lookup i).getD (floorOf values)

omit [IsStrictOrderedRing K] in
theorem level_repr (ids : List ℕ) (values : List K) (i : ℕ) :
    level (ids.map Nat.repr) values i.repr = level ids values i := by
  have same : ((ids.map Nat.repr).zip values).lookup i.repr = (ids.zip values).lookup i := by
    induction ids generalizing values with
    | nil => rfl
    | cons a rest ih =>
        cases values with
        | nil => rfl
        | cons v values =>
            rw [List.map_cons, List.zip_cons_cons, List.zip_cons_cons, Dict.lookup_cons_ite,
              Dict.lookup_cons_ite, ih]
            simp only [repr_injective.eq_iff]
  rw [level, level, same]

omit [IsStrictOrderedRing K] in
/-- The values of the broker, in the order of the list. -/
theorem normalize_of_nodup (fl : Rounding K) (sqrt : K → K) {list : List (ScoredDoc K)}
    (distinct : (ids list).Nodup) (n : ScoreNormalization) :
    Broker.Fusion.normalize fl sqrt list n = (ids list).zip (match n with
      | .minMax => minMax fl (list.map ScoredDoc.score)
      | .zScore => zScore fl sqrt (list.map ScoredDoc.score)) := by
  unfold Broker.Fusion.normalize
  rw [firstSeen_nil distinct]
  refine Dict.fill_nil ?_
  rw [Dict.keys, List.map_fst_zip]
  · exact distinct
  · cases n with
    | minMax => simp only [minMax, List.length_map, le_refl]
    | zScore => simp only [zScore, List.length_map, le_refl]

omit [IsStrictOrderedRing K] in
theorem keys_normalize (fl : Rounding K) (sqrt : K → K) {list : List (ScoredDoc K)}
    (distinct : (ids list).Nodup) (n : ScoreNormalization) :
    Dict.keys (Broker.Fusion.normalize fl sqrt list n) = ids list := by
  rw [normalize_of_nodup fl sqrt distinct, Dict.keys, List.map_fst_zip]
  cases n with
  | minMax => simp only [minMax, ids, List.length_map, le_refl]
  | zScore => simp only [zScore, ids, List.length_map, le_refl]

/-- **The broker's dictionary holds the tuner's normalised scores.** -/
theorem normalize_eq {sqrt : K → K} (sqrt_pos : ∀ x, 0 < x → 0 < sqrt x) {list : List (ScoredDoc K)}
    (distinct : (ids list).Nodup) (n : ScoreNormalization) :
    Broker.Fusion.normalize (.exact K) sqrt list n = (ids list).zip (normOf sqrt n list) := by
  rw [normalize_of_nodup _ sqrt distinct]
  cases n with
  | minMax => rw [normOf, tunerNorm, ← minMax_eq score_bounds sqrt]
  | zScore => rw [normOf, tunerNorm, ← zScore_eq sqrt_pos]

/-- What the broker's dictionaries give to an item. -/
def fused (fl : Rounding K) (alpha : K) (lex den : List (FusedDoc K)) (i : ℕ) : K :=
  fl (fl (alpha * (den.lookup i).getD (floorOf (den.map Prod.snd))) +
    fl (fl (1 - alpha) * (lex.lookup i).getD (floorOf (lex.map Prod.snd))))

omit [IsStrictOrderedRing K] in
/-- **The broker ranks the union by what its dictionaries give.** -/
theorem weighted_ranks_fused (fl : Rounding K) (sqrt : K → K) {lexical dense : List (ScoredDoc K)}
    {alpha : K} (nonneg : 0 ≤ alpha) (le_one : alpha ≤ 1) (lex_distinct : (ids lexical).Nodup)
    (dense_distinct : (ids dense).Nodup) (n : ScoreNormalization) :
    ∃ out, Broker.Fusion.weighted fl sqrt lexical dense alpha n = .ok out ∧
      Ranks id (pool (ids lexical) (ids dense))
        (fused fl alpha (Broker.Fusion.normalize fl sqrt lexical n)
          (Broker.Fusion.normalize fl sqrt dense n)) out := by
  have inside : ¬ (alpha < 0 ∨ alpha > 1) := by
    rw [not_or]
    exact ⟨not_lt.mpr nonneg, not_lt.mpr le_one⟩
  refine ⟨_, if_neg inside, sortRanking_ranks ?_⟩
  rw [keys_normalize fl sqrt lex_distinct, keys_normalize fl sqrt dense_distinct]
  obtain ⟨distinct, agrees, members⟩ := @Dict.fillNew_holds ℕ K _
    (fused fl alpha (Broker.Fusion.normalize fl sqrt lexical n)
      (Broker.Fusion.normalize fl sqrt dense n)) []
    List.nodup_nil (fun _ absent => absurd absent List.not_mem_nil) (ids lexical ++ ids dense)
  apply perm_of_lookups distinct (List.nodup_dedup _)
  · intro i
    rw [members, List.mem_dedup, Dict.keys_nil]
    simp only [List.not_mem_nil, false_or]
  · intro i mem
    have listed : i ∈ ids lexical ++ ids dense := List.mem_append.mpr (mem_pool.mp mem)
    have there := agrees i ((members i).mpr (.inr listed))
    exact congrArg (fun found => found.getD 0) there

/-- The weighted score of an item. -/
def blend {ι : Type} [DecidableEq ι] (alpha : K) (lexIds denseIds : List ι) (lexNorm denseNorm : List K)
    (i : ι) : K :=
  alpha * level denseIds denseNorm i + (1 - alpha) * level lexIds lexNorm i

/-- **In exact arithmetic these are the weighted scores.** -/
theorem weighted_ranks {sqrt : K → K} (sqrt_pos : ∀ x, 0 < x → 0 < sqrt x)
    {lexical dense : List (ScoredDoc K)} {alpha : K} (nonneg : 0 ≤ alpha) (le_one : alpha ≤ 1)
    (lex_distinct : (ids lexical).Nodup) (dense_distinct : (ids dense).Nodup)
    (n : ScoreNormalization) :
    ∃ out, Broker.Fusion.weighted (.exact K) sqrt lexical dense alpha n = .ok out ∧
      Ranks id (pool (ids lexical) (ids dense))
        (blend alpha (ids lexical) (ids dense) (normOf sqrt n lexical) (normOf sqrt n dense)) out := by
  have ranked := weighted_ranks_fused (.exact K) sqrt nonneg le_one lex_distinct dense_distinct n
  have same : fused (.exact K) alpha (Broker.Fusion.normalize (.exact K) sqrt lexical n)
      (Broker.Fusion.normalize (.exact K) sqrt dense n) =
      blend alpha (ids lexical) (ids dense) (normOf sqrt n lexical) (normOf sqrt n dense) := by
    funext i
    rw [normalize_eq sqrt_pos lex_distinct, normalize_eq sqrt_pos dense_distinct, fused, blend, level,
      level, List.map_snd_zip (length_normOf sqrt n lexical).le,
      List.map_snd_zip (length_normOf sqrt n dense).le]
    rfl
  rwa [same] at ranked

omit [IsStrictOrderedRing K] in
theorem part_decimal {sqrt : K → K} {n : ScoreNormalization} {depth : Option Int}
    (deep : ∀ d ∈ depth, 1 ≤ d) {list : List (ScoredDoc K)} (distinct : (ids list).Nodup) (w : K) :
    part sqrt (tunerNorm n) depth (decimal list) w =
      .ok ⟨((ids (cut depth list)).map Nat.repr).zip (normOf sqrt n (cut depth list)),
        floorOf (normOf sqrt n (cut depth list)), w⟩ := by
  have cut_distinct : (ids (cut depth list)).Nodup := nodup_cut distinct
  have keys_distinct : (Dict.keys (((ids (cut depth list)).map Nat.repr).zip
      (normOf sqrt n (cut depth list)))).Nodup := by
    rw [Dict.keys, List.map_fst_zip (by rw [length_normOf, List.length_map])]
    exact cut_distinct.map repr_injective
  rw [part, truncate_decimal deep]
  simp only [bind, Except.bind, pure, Except.pure, checkUnique_decimal cut_distinct, map_fst_decimal,
    map_snd_decimal]
  rw [← normOf, Dict.fill_nil keys_distinct, ← floorOf]

/-- **The tuner ranks the union by the weighted scores.** -/
theorem tuner_weighted_ranks (sqrt : K → K) {setOrder : List String → List String}
    (set_order : ∀ l, (setOrder l).Perm l.dedup) {lexical dense : List (ScoredDoc K)} {alpha : K}
    (nonneg : 0 ≤ alpha) (le_one : alpha ≤ 1) {depth : Option Int} (deep : ∀ d ∈ depth, 1 ≤ d)
    (lex_distinct : (ids lexical).Nodup) (dense_distinct : (ids dense).Nodup)
    (n : ScoreNormalization) :
    ∃ out, weighted sqrt setOrder (decimal lexical) (decimal dense) alpha (tunerNorm n) depth none =
        .ok out ∧
      Ranks docidKey (pool ((ids (cut depth lexical)).map Nat.repr) ((ids (cut depth dense)).map Nat.repr))
        (blend alpha ((ids (cut depth lexical)).map Nat.repr) ((ids (cut depth dense)).map Nat.repr)
          (normOf sqrt n (cut depth lexical)) (normOf sqrt n (cut depth dense))) out := by
  generalize lex_names : (ids (cut depth lexical)).map Nat.repr = lexNames
  generalize dense_names : (ids (cut depth dense)).map Nat.repr = denseNames
  generalize lex_norm : normOf sqrt n (cut depth lexical) = lexNorm
  generalize dense_norm : normOf sqrt n (cut depth dense) = denseNorm
  have lex_len : lexNorm.length = lexNames.length := by
    rw [← lex_norm, ← lex_names, length_normOf, List.length_map]
  have dense_len : denseNorm.length = denseNames.length := by
    rw [← dense_norm, ← dense_names, length_normOf, List.length_map]
  have docs : (setOrder (lexNames ++ denseNames)).Perm (pool lexNames denseNames) := set_order _
  refine ⟨_, ?_, sortFused_ranks (docs.map _)⟩
  rw [weighted, if_neg (not_not.mpr ⟨nonneg, le_one⟩)]
  simp only [part_decimal deep lex_distinct, part_decimal deep dense_distinct, bind, Except.bind, pure,
    Except.pure, lex_names, dense_names, lex_norm, dense_norm, List.flatMap_cons, List.flatMap_nil,
    List.append_nil, Dict.keys, List.map_fst_zip lex_len.ge, List.map_fst_zip dense_len.ge,
    List.map_cons, List.map_nil, List.sum_cons, List.sum_nil, add_zero]
  rw [Dict.fill_nil]
  · simp only [blend, level, add_comm]
  · rw [Dict.keys, List.map_map]
    exact (List.map_id _).symm ▸ docs.nodup_iff.mpr (List.nodup_dedup _)

/-! ## The tuner's arrays -/

section Arrays

variable {β : Type} {docs : List String} {entries : List (String × β)}

theorem position_eq (distinct : docs.Nodup) {d : String} (mem : d ∈ docs) :
    ((Dict.fill [] docs.zipIdx).lookup d).getD 0 = docs.idxOf d := by
  have keys_are : Dict.keys docs.zipIdx = docs := List.zipIdx_map_fst 0 docs
  have keys_distinct : (Dict.keys docs.zipIdx).Nodup := by
    rw [keys_are]
    exact distinct
  rw [Dict.fill_nil keys_distinct, Dict.lookup_of_mem keys_distinct, Option.getD_some]
  rw [List.mem_zipIdx_iff_getElem?]
  exact List.getElem?_idxOf mem

/-- **An array holds the value of the document at each position.** -/
theorem scatter_getElem? (distinct : docs.Nodup) (init : β) (keys_distinct : (Dict.keys entries).Nodup)
    (known : ∀ d ∈ Dict.keys entries, d ∈ docs) {p : ℕ} (inside : p < docs.length) :
    (scatter (Dict.fill [] docs.zipIdx) docs.length init entries)[p]? =
      some ((entries.lookup docs[p]).getD init) := by
  have run : ∀ (entries : List (String × β)) (a : List β) (v : β),
      (Dict.keys entries).Nodup → (∀ d ∈ Dict.keys entries, d ∈ docs) → a[p]? = some v →
      (entries.foldl (fun a entry =>
        a.set (((Dict.fill [] docs.zipIdx).lookup entry.1).getD 0) entry.2) a)[p]? =
        some ((entries.lookup docs[p]).getD v) := by
    intro entries
    induction entries with
    | nil =>
        intro a v _ _ at_p
        exact at_p
    | cons entry rest ih =>
        intro a v keys_distinct known at_p
        obtain ⟨d, x⟩ := entry
        rw [Dict.keys_cons, List.nodup_cons] at keys_distinct
        have d_known : d ∈ docs := known d (List.mem_cons_self ..)
        rw [List.foldl_cons, position_eq distinct d_known, Dict.lookup_cons_ite]
        by_cases here : docs[p] = d
        · have position : docs.idxOf d = p := by
            rw [← here]
            exact distinct.idxOf_getElem p inside
          have p_inside : p < a.length := (List.getElem?_eq_some_iff.mp at_p).1
          have written : (a.set (docs.idxOf d) x)[p]? = some x := by
            rw [position, List.getElem?_set_self p_inside]
          rw [ih _ x keys_distinct.2 (fun d mem => known d (List.mem_cons_of_mem _ mem)) written,
            if_pos here, here, Dict.lookup_eq_none keys_distinct.1, Option.getD_none,
            Option.getD_some]
        · have elsewhere : docs.idxOf d ≠ p := by
            rintro rfl
            exact here (List.getElem_idxOf inside)
          have kept : (a.set (docs.idxOf d) x)[p]? = some v := by
            rw [List.getElem?_set_ne elsewhere, at_p]
          rw [ih _ v keys_distinct.2 (fun d mem => known d (List.mem_cons_of_mem _ mem)) kept,
            if_neg here]
  apply run entries _ init keys_distinct known
  rw [List.getElem?_replicate, if_pos inside]

end Arrays

theorem order_ranks {qc : QueryCands K} {scores : List K} {score : String → K}
    (ascending : qc.docs.Pairwise fun d d' => docidKey d ≤ docidKey d')
    (same_length : scores.length = qc.docs.length)
    (scored : ∀ p (inside : p < qc.docs.length), scores[p]? = some (score qc.docs[p])) :
    Ranks docidKey qc.docs score (order qc scores none) := by
  apply @Ranks.of_stable_argsort _ _ _ _ _ ⟨""⟩ docidKey qc.docs score _ ascending
    fun p => scores.getD p 0
  · intro p inside
    rw [List.getD_eq_getElem?_getD, scored p inside, Option.getD_some]
  · simp only [order, neg_le_neg_iff, same_length]

/-- What `prepare` returns for two retrieved lists. -/
def prepared (sqrt : K → K) (docs : List String) (lexical dense : List (ScoredDoc K)) : QueryCands K :=
  let pos := Dict.fill [] docs.zipIdx
  ⟨docs, rankArray pos docs.length (decimal lexical), rankArray pos docs.length (decimal dense),
    fun m => (normArray sqrt pos docs.length m (decimal lexical),
      normArray sqrt pos docs.length m (decimal dense))⟩

omit [IsStrictOrderedRing K] in
theorem prepare_eq (sqrt : K → K) {setOrder : List String → List String}
    (set_order : ∀ l, (setOrder l).Perm l.dedup) {depth : Option Int} (deep : ∀ d ∈ depth, 1 ≤ d)
    (lexical dense : List (ScoredDoc K)) :
    ∃ docs, prepare sqrt setOrder (decimal lexical) (decimal dense) depth =
        .ok (prepared sqrt docs (cut depth lexical) (cut depth dense)) ∧
      docs.Perm (pool ((ids (cut depth lexical)).map Nat.repr) ((ids (cut depth dense)).map Nat.repr)) ∧
      docs.Pairwise fun d d' => docidKey d ≤ docidKey d' := by
  refine ⟨_, ?_, (List.mergeSort_perm _ fun d d' => decide (docidKey d ≤ docidKey d')).trans
    (set_order _), ?_⟩
  · rw [prepare, truncate_decimal deep, truncate_decimal deep]
    simp only [bind, Except.bind, pure, Except.pure, prepared, map_fst_decimal]
  · have sorted := @List.pairwise_mergeSort String (fun d d' => decide (docidKey d ≤ docidKey d'))
      (fun a b c first second => by
        rw [decide_eq_true_eq] at first second ⊢
        exact first.trans second)
      (fun a b => by
        rw [Bool.or_eq_true, decide_eq_true_eq, decide_eq_true_eq]
        exact le_total _ _)
      (setOrder ((ids (cut depth lexical)).map Nat.repr ++ (ids (cut depth dense)).map Nat.repr))
    exact sorted.imp of_decide_eq_true

section Prepared

variable {docs : List String} (docs_distinct : docs.Nodup)
include docs_distinct

omit [IsStrictOrderedRing K] in
theorem reciprocals_getElem? (k : K) {list : List (ScoredDoc K)} (distinct : (ids list).Nodup)
    (known : ∀ d ∈ (ids list).map Nat.repr, d ∈ docs) {p : ℕ} (inside : p < docs.length) :
    (reciprocals k (rankArray (Dict.fill [] docs.zipIdx) docs.length (decimal list)))[p]? =
      some (share (worth k) ((ids list).map Nat.repr) docs[p]) := by
  have entries_are : ((decimal list).zipIdx 1).map (fun entry => (entry.1.1, some entry.2)) =
      entriesFrom some 1 ((ids list).map Nat.repr) := by
    rw [← map_fst_decimal, entriesFrom, List.zipIdx_map, List.map_map]
    rfl
  have names_distinct := distinct.map repr_injective
  rw [reciprocals, rankArray, entries_are, List.getElem?_map, scatter_getElem? docs_distinct none
    (by rw [keys_entriesFrom]; exact names_distinct) (by rw [keys_entriesFrom]; exact known) inside,
    lookup_entriesFrom some 1 names_distinct, Option.map_some, share]
  split_ifs <;> rfl

omit [IsStrictOrderedRing K] in
theorem normArray_getElem? (sqrt : K → K) (n : ScoreNormalization) {list : List (ScoredDoc K)}
    (distinct : (ids list).Nodup) (known : ∀ d ∈ (ids list).map Nat.repr, d ∈ docs) {p : ℕ}
    (inside : p < docs.length) :
    (normArray sqrt (Dict.fill [] docs.zipIdx) docs.length (tunerNorm n) (decimal list))[p]? =
      some (level ((ids list).map Nat.repr) (normOf sqrt n list) docs[p]) := by
  have names_len : ((ids list).map Nat.repr).length ≤ (normOf sqrt n list).length := by
    rw [length_normOf, List.length_map]
  rw [normArray, map_fst_decimal, map_snd_decimal, ← normOf]
  have names : Dict.keys (((ids list).map Nat.repr).zip (normOf sqrt n list)) =
      (ids list).map Nat.repr := List.map_fst_zip names_len
  rw [scatter_getElem? docs_distinct _ (by rw [names]; exact distinct.map repr_injective)
    (by rw [names]; exact known) inside]
  rfl

end Prepared

omit [LinearOrder K] [IsStrictOrderedRing K] in
theorem length_scatter {β : Type} (pos : List (String × Nat)) (n : Nat) (init : β)
    (entries : List (String × β)) : (scatter pos n init entries).length = n := by
  have run : ∀ a : List β, (entries.foldl (fun a entry =>
      a.set ((pos.lookup entry.1).getD 0) entry.2) a).length = a.length := by
    induction entries with
    | nil => exact fun a => rfl
    | cons entry rest ih =>
        intro a
        rw [List.foldl_cons, ih, List.length_set]
  rw [scatter, run, List.length_replicate]

/-- **The arrays rank the union by its reciprocals.** -/
theorem rrfFast_ranks (sqrt : K → K) (k : K) {docs : List String} {lexical dense : List (ScoredDoc K)}
    (lex_distinct : (ids lexical).Nodup) (dense_distinct : (ids dense).Nodup)
    (union : docs.Perm (pool ((ids lexical).map Nat.repr) ((ids dense).map Nat.repr)))
    (ascending : docs.Pairwise fun d d' => docidKey d ≤ docidKey d') :
    Ranks docidKey docs
      (fun d => share (worth k) ((ids lexical).map Nat.repr) d +
        share (worth k) ((ids dense).map Nat.repr) d)
      (rrfFast (prepared sqrt docs lexical dense) k none) := by
  have docs_distinct : docs.Nodup := union.nodup_iff.mpr (List.nodup_dedup _)
  apply @order_ranks _ _ _ _ (prepared sqrt docs lexical dense) (rrfScores _ k) _ ascending
  · simp only [rrfScores, prepared, List.length_zipWith, reciprocals, List.length_map, rankArray,
      length_scatter, min_self]
  · intro p inside
    rw [rrfScores, List.getElem?_zipWith]
    simp only [prepared]
    rw [reciprocals_getElem? docs_distinct k lex_distinct
        (fun d mem => union.mem_iff.mpr (mem_pool.mpr (.inl mem))) inside,
      reciprocals_getElem? docs_distinct k dense_distinct
        (fun d mem => union.mem_iff.mpr (mem_pool.mpr (.inr mem))) inside]
    rfl

/-- **The arrays rank the union by the weighted scores.** -/
theorem weightedFast_ranks (sqrt : K → K) (alpha : K) (n : ScoreNormalization) {docs : List String}
    {lexical dense : List (ScoredDoc K)}
    (lex_distinct : (ids lexical).Nodup) (dense_distinct : (ids dense).Nodup)
    (union : docs.Perm (pool ((ids lexical).map Nat.repr) ((ids dense).map Nat.repr)))
    (ascending : docs.Pairwise fun d d' => docidKey d ≤ docidKey d') :
    Ranks docidKey docs
      (blend alpha ((ids lexical).map Nat.repr) ((ids dense).map Nat.repr) (normOf sqrt n lexical)
        (normOf sqrt n dense))
      (weightedFast (prepared sqrt docs lexical dense) alpha (tunerNorm n) none) := by
  have docs_distinct : docs.Nodup := union.nodup_iff.mpr (List.nodup_dedup _)
  apply @order_ranks _ _ _ _ (prepared sqrt docs lexical dense)
    (weightedScores _ alpha (tunerNorm n)) _ ascending
  · simp only [weightedScores, prepared, List.length_zipWith, normArray, length_scatter, min_self]
  · intro p inside
    rw [weightedScores, List.getElem?_zipWith]
    simp only [prepared]
    rw [normArray_getElem? docs_distinct sqrt n lex_distinct
        (fun d mem => union.mem_iff.mpr (mem_pool.mpr (.inl mem))) inside,
      normArray_getElem? docs_distinct sqrt n dense_distinct
        (fun d mem => union.mem_iff.mpr (mem_pool.mpr (.inr mem))) inside]
    exact congrArg some (add_comm _ _)

/-! ## Agreement -/

/-- The three programs return one list. -/
def Agree (broker : Except String (List (FusedDoc K))) (core fast : Except String (Ranking K)) : Prop :=
  ∃ out, broker = .ok out ∧ core = .ok (named out) ∧ fast = .ok (named out)

/-- The three programs return one list at every depth, for either method. -/
def FusionsAgree (sqrt : K → K) (setOrder : List String → List String)
    (lexical dense : List (ScoredDoc K)) (k : Int) (alpha : K) : Prop :=
  ∀ depth : Option Int, (∀ d ∈ depth, 1 ≤ d) →
    (∀ n : ScoreNormalization,
      Agree (fuse (.exact K) sqrt (cut depth lexical) (cut depth dense) ⟨.rrf, k, alpha, n⟩)
        (rrf [decimal lexical, decimal dense] k depth none)
        ((prepare sqrt setOrder (decimal lexical) (decimal dense) depth).map
          fun qc => rrfFast qc k none)) ∧
    ∀ n : ScoreNormalization,
      Agree (fuse (.exact K) sqrt (cut depth lexical) (cut depth dense) ⟨.weighted, k, alpha, n⟩)
        (weighted sqrt setOrder (decimal lexical) (decimal dense) alpha (tunerNorm n) depth none)
        ((prepare sqrt setOrder (decimal lexical) (decimal dense) depth).map
          fun qc => weightedFast qc alpha (tunerNorm n) none)

section Agreement

variable {sqrt : K → K} {setOrder : List String → List String} {lexical dense : List (ScoredDoc K)}
  {alpha : K} {depth : Option Int}

omit [Field K] [IsStrictOrderedRing K] in
/-- **Three rankings of one union by one score agree.** -/
theorem agree_of_ranks {broker : Except String (List (FusedDoc K))} {core fast : Except String (Ranking K)}
    {items items' : List ℕ} {score : ℕ → K} {score' : String → K} {docs : List String}
    (same_score : ∀ i ∈ pool items items', score' i.repr = score i)
    (broker_ranks : ∃ out, broker = .ok out ∧ Ranks id (pool items items') score out)
    (core_ranks : ∃ out, core = .ok out ∧
      Ranks docidKey (pool (items.map Nat.repr) (items'.map Nat.repr)) score' out)
    (union : docs.Perm (pool (items.map Nat.repr) (items'.map Nat.repr)))
    (fast_ranks : ∃ out, fast = .ok out ∧ Ranks docidKey docs score' out) : Agree broker core fast := by
  obtain ⟨out, broker_returned, ranks⟩ := broker_ranks
  obtain ⟨coreOut, core_returned, core_ranks⟩ := core_ranks
  obtain ⟨fastOut, fast_returned, fast_ranks⟩ := fast_ranks
  have pool_named : (pool (items.map Nat.repr) (items'.map Nat.repr)).Perm
      ((pool items items').map Nat.repr) := List.Perm.of_eq (pool_map repr_injective).symm
  refine ⟨out, broker_returned, ?_, ?_⟩
  · rw [core_returned, eq_named ranks core_ranks pool_named same_score]
  · rw [fast_returned, eq_named ranks fast_ranks (union.trans pool_named) same_score]

/-- The weighted fusions always agree. -/
theorem weighted_agree (sqrt_pos : ∀ x, 0 < x → 0 < sqrt x)
    (set_order : ∀ l, (setOrder l).Perm l.dedup) (nonneg : 0 ≤ alpha) (le_one : alpha ≤ 1)
    (deep : ∀ d ∈ depth, 1 ≤ d) (lex_distinct : (ids lexical).Nodup)
    (dense_distinct : (ids dense).Nodup) (n : ScoreNormalization) :
    Agree (Broker.Fusion.weighted (.exact K) sqrt (cut depth lexical) (cut depth dense) alpha n)
      (weighted sqrt setOrder (decimal lexical) (decimal dense) alpha (tunerNorm n) depth none)
      ((prepare sqrt setOrder (decimal lexical) (decimal dense) depth).map
        fun qc => weightedFast qc alpha (tunerNorm n) none) := by
  have lex_cut : (ids (cut depth lexical)).Nodup := nodup_cut lex_distinct
  have dense_cut : (ids (cut depth dense)).Nodup := nodup_cut dense_distinct
  obtain ⟨docs, prepare_returned, union, ascending⟩ := prepare_eq sqrt set_order deep lexical dense
  apply agree_of_ranks ?_ (weighted_ranks sqrt_pos nonneg le_one lex_cut dense_cut n)
    (tuner_weighted_ranks sqrt set_order nonneg le_one deep lex_distinct dense_distinct n) union
  · refine ⟨_, ?_, weightedFast_ranks sqrt alpha n lex_cut dense_cut union ascending⟩
    rw [prepare_returned, Except.map]
  · intro i _
    rw [blend, blend, level_repr, level_repr]

/-! ## Where the broker's sum wraps -/

omit [LinearOrder K] [IsStrictOrderedRing K] in
/-- Below the wrap the two worths of a rank are equal. -/
theorem worth32_eq {k : Int} (nonneg : 0 ≤ k) {n : ℕ} (small : k + n < 2 ^ 31) :
    (worth32 k n : K) = worth (k : K) n := by
  rw [worth32, worth, add32_of_lt (by omega) small, Int.cast_add, Int.cast_natCast]

/-- **From the wrap on the broker's worth is negative.** -/
theorem worth32_lt {k : Int} (nonneg : 0 ≤ k) (int : k < 2 ^ 31) {n : ℕ} (rank : n < 2 ^ 31)
    (wraps : 2 ^ 31 ≤ k + n) : (worth32 k n : K) < worth (k : K) n := by
  have wrapped : add32 k n < 0 := by
    rw [add32, Int.bmod_def]
    split_ifs <;> omega
  have positive : (0 : K) < k + n := by
    have : (0 : K) < ((k + n : Int) : K) := Int.cast_pos.mpr (by omega)
    rwa [Int.cast_add, Int.cast_natCast] at this
  calc (worth32 k n : K) < 0 := one_div_neg.mpr (Int.cast_lt_zero.mpr wrapped)
    _ < worth (k : K) n := one_div_pos.mpr positive

theorem worth32_le {k : Int} (nonneg : 0 ≤ k) (int : k < 2 ^ 31) {n : ℕ} (rank : n < 2 ^ 31) :
    (worth32 k n : K) ≤ worth (k : K) n := by
  by_cases small : k + n < 2 ^ 31
  · exact (worth32_eq nonneg small).le
  · exact (worth32_lt nonneg int rank (not_lt.mp small)).le

theorem share_le {k : Int} (nonneg : 0 ≤ k) (int : k < 2 ^ 31) {ids : List ℕ}
    (count : ids.length < 2 ^ 31) (i : ℕ) :
    (share (worth32 k) ids i : K) ≤ share (worth (k : K)) ids i := by
  rw [share, share]
  split_ifs with mem
  · have := List.idxOf_lt_length_of_mem mem
    exact worth32_le nonneg int (by omega)
  · exact le_rfl

theorem share_lt {k : Int} (nonneg : 0 ≤ k) (int : k < 2 ^ 31) {ids : List ℕ} (distinct : ids.Nodup)
    (count : ids.length < 2 ^ 31) (wraps : 2 ^ 31 ≤ k + ids.length) :
    ∃ i ∈ ids, (share (worth32 k) ids i : K) < share (worth (k : K)) ids i := by
  have last : ids.length - 1 < ids.length := by omega
  have position := distinct.idxOf_getElem (ids.length - 1) last
  have mem : ids[ids.length - 1] ∈ ids := List.getElem_mem last
  refine ⟨ids[ids.length - 1], mem, ?_⟩
  rw [share, share, if_pos mem, if_pos mem, position]
  exact worth32_lt nonneg int (by omega) (by omega)

omit [LinearOrder K] [IsStrictOrderedRing K] in
theorem share_congr {k : Int} (nonneg : 0 ≤ k) {ids : List ℕ} (small : k + ids.length < 2 ^ 31)
    (i : ℕ) : (share (worth32 k) ids i : K) = share (worth (k : K)) ids i := by
  rw [share, share]
  split_ifs with mem
  · have := List.idxOf_lt_length_of_mem mem
    exact worth32_eq nonneg (by omega)
  · rfl

/-- Below the wrap the reciprocal-rank fusions agree. -/
theorem rrf_agree (set_order : ∀ l, (setOrder l).Perm l.dedup) (deep : ∀ d ∈ depth, 1 ≤ d)
    (lex_distinct : (ids lexical).Nodup) (dense_distinct : (ids dense).Nodup) {k : Int} (nonneg : 0 ≤ k)
    (lex_small : k + lexical.length < 2 ^ 31) (dense_small : k + dense.length < 2 ^ 31) :
    Agree (reciprocalRank (.exact K) [cut depth lexical, cut depth dense] k)
      (rrf [decimal lexical, decimal dense] k depth none)
      ((prepare sqrt setOrder (decimal lexical) (decimal dense) depth).map
        fun qc => rrfFast qc k none) := by
  have lex_cut : (ids (cut depth lexical)).Nodup := nodup_cut lex_distinct
  have dense_cut : (ids (cut depth dense)).Nodup := nodup_cut dense_distinct
  have lex_len := (cut_sublist depth lexical).length_le
  have dense_len := (cut_sublist depth dense).length_le
  obtain ⟨docs, prepare_returned, union, ascending⟩ := prepare_eq sqrt set_order deep lexical dense
  apply agree_of_ranks ?_
    (reciprocalRank_ranks nonneg lex_cut dense_cut (by omega) (by omega))
    (rrf_ranks (Int.cast_nonneg nonneg : (0 : K) ≤ k) deep lex_distinct dense_distinct) union
  · refine ⟨_, ?_, rrfFast_ranks sqrt (k : K) lex_cut dense_cut union ascending⟩
    rw [prepare_returned, Except.map]
  · intro i _
    rw [share_map _ _ repr_injective, share_map _ _ repr_injective,
      share_congr nonneg (by rw [ids, List.length_map]; omega),
      share_congr nonneg (by rw [ids, List.length_map]; omega)]

/-- Where the reciprocal-rank fusions agree, so do their scores. -/
theorem shares_eq_of_agree {k : Int} (nonneg : 0 ≤ k) (lex_distinct : (ids lexical).Nodup)
    (dense_distinct : (ids dense).Nodup) (lex_count : lexical.length < 2 ^ 31)
    (dense_count : dense.length < 2 ^ 31) {fast : Except String (Ranking K)}
    (agree : Agree (reciprocalRank (.exact K) [lexical, dense] k)
      (rrf [decimal lexical, decimal dense] k none none) fast) :
    ∀ i ∈ pool (ids lexical) (ids dense),
      (share (worth32 k) (ids lexical) i + share (worth32 k) (ids dense) i : K) =
        share (worth (k : K)) (ids lexical) i + share (worth (k : K)) (ids dense) i := by
  intro i mem
  obtain ⟨out, returned, core_returned, _⟩ := agree
  obtain ⟨out', returned', ranks⟩ :=
    reciprocalRank_ranks nonneg lex_distinct dense_distinct lex_count dense_count
  obtain ⟨core, core_returned', core_ranks⟩ := rrf_ranks (Int.cast_nonneg nonneg : (0 : K) ≤ k)
    (by simp : ∀ d ∈ (none : Option Int), 1 ≤ d) lex_distinct dense_distinct
  cases returned.symm.trans returned'
  cases core_returned.symm.trans core_returned'
  have listed := ranks.mem_iff.mpr ⟨mem, rfl⟩
  have listed_core := List.mem_map_of_mem (f := Prod.map Nat.repr id) listed
  have core_score := (core_ranks.mem_iff.mp listed_core).2
  rw [cut, cut, share_map _ _ repr_injective, share_map _ _ repr_injective] at core_score
  exact core_score.symm

/-- **The three programs agree exactly where no `k + rank` wraps.** -/
theorem fusions_agree (sqrt_pos : ∀ x, 0 < x → 0 < sqrt x)
    (set_order : ∀ l, (setOrder l).Perm l.dedup) (lexical dense : List (ScoredDoc K))
    (lex_distinct : (ids lexical).Nodup) (dense_distinct : (ids dense).Nodup)
    (lex_count : lexical.length < 2 ^ 31) (dense_count : dense.length < 2 ^ 31)
    (k : Int) (nonneg : 0 ≤ k) (int : k < 2 ^ 31) (alpha_nonneg : 0 ≤ alpha) (alpha_le : alpha ≤ 1) :
    FusionsAgree sqrt setOrder lexical dense k alpha ↔
      k + lexical.length < 2 ^ 31 ∧ k + dense.length < 2 ^ 31 := by
  have lex_len : (ids lexical).length = lexical.length := List.length_map _
  have dense_len : (ids dense).length = dense.length := List.length_map _
  constructor
  · intro agree
    have scores := shares_eq_of_agree nonneg lex_distinct dense_distinct lex_count dense_count
      ((agree none (by simp)).1 .minMax)
    have lex_le := share_le (K := K) nonneg int (lex_len.trans_lt lex_count)
    have dense_le := share_le (K := K) nonneg int (dense_len.trans_lt dense_count)
    constructor
    · by_contra wraps
      obtain ⟨i, mem, lower⟩ := share_lt (K := K) nonneg int lex_distinct (lex_len.trans_lt lex_count)
        (by omega)
      exact (add_lt_add_of_lt_of_le lower (dense_le i)).ne (scores i (mem_pool.mpr (.inl mem)))
    · by_contra wraps
      obtain ⟨i, mem, lower⟩ := share_lt (K := K) nonneg int dense_distinct
        (dense_len.trans_lt dense_count) (by omega)
      exact (add_lt_add_of_le_of_lt (lex_le i) lower).ne (scores i (mem_pool.mpr (.inr mem)))
  · rintro ⟨lex_small, dense_small⟩ depth deep
    constructor
    · intro _
      exact rrf_agree set_order deep lex_distinct dense_distinct nonneg lex_small dense_small
    · intro n
      exact weighted_agree sqrt_pos set_order alpha_nonneg alpha_le deep lex_distinct dense_distinct n

end Agreement

/-- A document with score 1. -/
def unitDoc (docId : ℕ) : ScoredDoc K where
  docId := docId
  score := 1
  finite := by
    have low : (1 : K) ≤ floatMax K := by
      rw [floatMax]
      norm_num
    exact ⟨(neg_nonpos.mpr (zero_le_one.trans low)).trans zero_le_one, low⟩

theorem fusions_agree_two :
    FusionsAgree Real.sqrt List.dedup [unitDoc 7, unitDoc 12] [unitDoc 12] 60 (1 / 2) ↔
      (60 : Int) + 2 < 2 ^ 31 ∧ (60 : Int) + 1 < 2 ^ 31 :=
  fusions_agree (fun _ => Real.sqrt_pos.mpr) (fun l => List.Perm.refl l.dedup)
    [unitDoc 7, unitDoc 12] [unitDoc 12] (by decide) (by decide) (by decide) (by decide) 60 (by decide)
    (by decide) (by norm_num) (by norm_num)

/-- With the greatest `int` as `k` the first rank wraps, and its reciprocal is negative. -/
theorem fusions_differ : ¬ FusionsAgree id List.dedup [unitDoc 7] [] 2147483647 (1 / 2 : ℚ) := by
  intro agree
  obtain ⟨out, broker, core, _⟩ := (agree none (by simp)).1 .minMax
  have broker_is : fuse (.exact ℚ) id (cut none [unitDoc 7]) (cut none []) ⟨.rrf, 2147483647, 1 / 2, .minMax⟩ =
      .ok [(7, (-1 / 2147483648 : ℚ))] := by decide +kernel
  have core_is : rrf [decimal [unitDoc 7], decimal []] ((2147483647 : Int) : ℚ) none none =
      .ok [("7", (1 / 2147483648 : ℚ))] := by decide +kernel
  cases broker.symm.trans broker_is
  exact absurd (core.symm.trans core_is) (by decide +kernel)

end HybridSearch.Tuner
