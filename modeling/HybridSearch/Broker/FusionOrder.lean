/-
# Broker.FusionOrder -- what fusing does to the order of the retrieved lists

Either normalisation maps the scores of a list by one increasing function
(`normalise_eq_map`).  So one list alone keeps its order under any weight but 0, where all
scores are equal and the ids decide; and a document that both lists put above another is
fused above it.  Reciprocal ranks fall with the rank also where `k + rank` has wrapped,
but they are negative there, and a list that does not name the document gives it more.
-/
import HybridSearch.Tuner.FusionAgreement

namespace HybridSearch.Broker.Fusion

open HybridSearch.Theory HybridSearch.Theory.Ranking HybridSearch.Tuner

set_option autoImplicit false

variable {K : Type} [Field K] [LinearOrder K] [IsStrictOrderedRing K]

/-! ## The normalised scores -/

omit [Field K] [IsStrictOrderedRing K] in
theorem extremes_of_mem {s : List K} {x z : K} (mem : x ∈ s) :
    s.min?.getD z ≤ x ∧ x ≤ s.max?.getD z := by
  constructor
  · cases least : s.min? with
    | none => exact absurd (List.min?_eq_none_iff.mp least ▸ mem) List.not_mem_nil
    | some lo => exact (List.min?_eq_some_iff.mp least).2 x mem
  · cases most : s.max? with
    | none => exact absurd (List.max?_eq_none_iff.mp most ▸ mem) List.not_mem_nil
    | some hi => exact (List.max?_eq_some_iff.mp most).2 x mem

/-- **Either normalisation is increasing on the scores of a list.** -/
theorem normalise_eq_map {sqrt : K → K} (sqrt_pos : ∀ x, 0 < x → 0 < sqrt x) (scores : List K)
    (m : Normalisation) :
    ∃ f : K → K, normalise sqrt scores m = scores.map f ∧
      ∀ x ∈ scores, ∀ y ∈ scores, x < y → f x < f y := by
  cases m with
  | minmax =>
      have range (x y : K) (x_mem : x ∈ scores) (y_mem : y ∈ scores) (less : x < y) :
          0 < scores.max?.getD 0 - scores.min?.getD 0 :=
        sub_pos.mpr ((extremes_of_mem x_mem).1.trans_lt (less.trans_le (extremes_of_mem y_mem).2))
      rw [normalise]
      split_ifs with flat
      · refine ⟨fun _ => 1, List.map_const'.symm, fun x x_mem y y_mem less => ?_⟩
        exact absurd flat (range x y x_mem y_mem less).ne'
      · refine ⟨_, rfl, fun x x_mem y y_mem less => ?_⟩
        exact div_lt_div_of_pos_right (sub_lt_sub_right less _) (range x y x_mem y_mem less)
  | zscore =>
      rw [normalise]
      have spread := spread_pos sqrt_pos scores (scores.sum / scores.length)
      split_ifs with flat
      · refine ⟨fun _ => 0, List.map_const'.symm, fun x x_mem y y_mem less => ?_⟩
        rcases spread with positive | same
        · exact absurd flat positive.ne'
        · exact absurd (same x x_mem) (sub_neg.mpr (less.trans_eq (sub_eq_zero.mp (same y y_mem)))).ne
      · refine ⟨_, rfl, fun x x_mem y y_mem less => ?_⟩
        rcases spread with positive | same
        · exact div_lt_div_of_pos_right (sub_lt_sub_right less _) positive
        · exact absurd (same x x_mem) (sub_neg.mpr (less.trans_eq (sub_eq_zero.mp (same y y_mem)))).ne

/-- What a list gives to its own documents, and to the others. -/
theorem level_spec {sqrt : K → K} (sqrt_pos : ∀ x, 0 < x → 0 < sqrt x) {list : List (ScoredDoc K)}
    (distinct : (ids list).Nodup) (n : ScoreNormalization) :
    ∃ f : K → K, (∀ d ∈ list, ∀ e ∈ list, d.score < e.score → f d.score < f e.score) ∧
      (∀ d ∈ list, level (ids list) (normOf sqrt n list) d.docId = f d.score) ∧
      ∀ i ∉ ids list, level (ids list) (normOf sqrt n list) i = floorOf (normOf sqrt n list) := by
  obtain ⟨f, mapped, increasing⟩ := normalise_eq_map sqrt_pos (list.map ScoredDoc.score) (tunerNorm n)
  have zipped : (ids list).zip (normOf sqrt n list) = list.map fun d => (d.docId, f d.score) := by
    rw [normOf, mapped, List.map_map, ids, List.zip_map']
    rfl
  have keys_are : Dict.keys ((ids list).zip (normOf sqrt n list)) = ids list :=
    List.map_fst_zip (length_normOf sqrt n list).ge
  refine ⟨f, fun d d_mem e e_mem => increasing _ (List.mem_map_of_mem d_mem) _ (List.mem_map_of_mem e_mem),
    fun d mem => ?_, fun i absent => ?_⟩
  · have found : ((ids list).zip (normOf sqrt n list)).lookup d.docId = some (f d.score) := by
      apply Dict.lookup_of_mem (keys_are.symm ▸ distinct)
      rw [zipped]
      exact List.mem_map_of_mem (f := fun d => (d.docId, f d.score)) mem
    rw [level, found, Option.getD_some]
  · rw [level, Dict.lookup_eq_none (keys_are.symm ▸ absent), Option.getD_none]

/-! ## One list alone -/

/-- The list is in ranking order: scores descend, and the ids of equal scores ascend. -/
def InOrder (list : List (ScoredDoc K)) : Prop :=
  list.Pairwise fun d e => e.score < d.score ∨ d.score = e.score ∧ d.docId < e.docId

/-- The fused documents are those of the two lists, one after the other. -/
def KeepsOrder (fl : Rounding K) (sqrt : K → K) (lexical dense : List (ScoredDoc K)) (alpha : K)
    (n : ScoreNormalization) : Prop :=
  ∃ out, weighted fl sqrt lexical dense alpha n = .ok out ∧ out.map Prod.fst = ids (lexical ++ dense)

/-- Wherever the ids do not ascend, the weight leaves the rounded scores different. -/
def KeptApart (fl : Rounding K) (w : K) (scored : List (FusedDoc K)) : Prop :=
  scored.Pairwise fun a b => a.1 < b.1 ∨ fl (w * a.2) ≠ fl (w * b.2)

section Single

variable (fl : Rounding K) (sqrt : K → K) {list : List (ScoredDoc K)}

theorem rescale_monotone (c r flat : K) :
    Monotone fun s => if r > 0 then fl (fl (s - c) / r) else flat := by
  intro x y le
  dsimp only
  split_ifs with wide
  · exact fl.monotone (div_le_div_of_nonneg_right (fl.monotone (sub_le_sub_right le c)) wide.le)
  · exact le_rfl

/-- **Rounded or not, normalisation never turns scores around.** -/
theorem normalize_monotone (distinct : (ids list).Nodup) (n : ScoreNormalization) :
    ∃ f : K → K, Monotone f ∧ normalize fl sqrt list n = list.map fun d => (d.docId, f d.score) := by
  have zipped (f : K → K) : (ids list).zip ((list.map ScoredDoc.score).map f) =
      list.map fun d => (d.docId, f d.score) := by
    rw [List.map_map, ids, List.zip_map']
    rfl
  rw [normalize_of_nodup fl sqrt distinct]
  cases n with
  | minMax =>
      dsimp only
      rw [minMax, zipped]
      exact ⟨_, rescale_monotone fl _ _ _, rfl⟩
  | zScore =>
      dsimp only
      rw [zScore, zipped]
      exact ⟨_, rescale_monotone fl _ _ _, rfl⟩

omit [IsStrictOrderedRing K] in
theorem nodup_ids_nil : (ids ([] : List (ScoredDoc K))).Nodup := List.nodup_nil

omit [IsStrictOrderedRing K] in
theorem normalize_nil (n : ScoreNormalization) : normalize fl sqrt ([] : List (ScoredDoc K)) n = [] := by
  have none_listed : Dict.keys (normalize fl sqrt ([] : List (ScoredDoc K)) n) = [] :=
    keys_normalize fl sqrt nodup_ids_nil n
  exact List.map_eq_nil_iff.mp none_listed

/-- A ranked list keeps its order under a weight exactly where the ids order the ties. -/
theorem ranks_single_iff (distinct : (ids list).Nodup) (ordered : InOrder list) {w : K}
    (nonneg : 0 ≤ w) (n : ScoreNormalization) {items : List ℕ} (same : items.Perm (ids list))
    {score : ℕ → K} (weighs : ∀ a ∈ normalize fl sqrt list n, score a.1 = fl (w * a.2))
    {out : List (FusedDoc K)} (ranks : Ranks id items score out) :
    out.map Prod.fst = ids list ↔ KeptApart fl w (normalize fl sqrt list n) := by
  rw [ranks.map_fst_eq_iff same fun _ _ _ _ same => same]
  obtain ⟨f, mono, scored⟩ := normalize_monotone fl sqrt distinct n
  have weighs' (d : ScoredDoc K) (mem : d ∈ list) : score d.docId = fl (w * f d.score) :=
    weighs (d.docId, f d.score) (scored ▸ List.mem_map_of_mem (f := fun d => (d.docId, f d.score)) mem)
  have falls : list.Pairwise fun d e => score e.docId ≤ score d.docId := by
    refine (List.Pairwise.and_mem.mp ordered).imp ?_
    rintro d e ⟨d_mem, e_mem, ranked⟩
    rw [weighs' d d_mem, weighs' e e_mem]
    refine fl.monotone (mul_le_mul_of_nonneg_left (mono ?_) nonneg)
    rcases ranked with lower | tied
    · exact lower.le
    · exact tied.1.ge
  rw [KeptApart, scored, ids, List.map_map, List.pairwise_map, List.pairwise_map]
  have distinct' : list.Pairwise fun d e => d.docId ≠ e.docId := List.pairwise_map.mp distinct
  have facts := List.Pairwise.and_mem.mp (falls.and distinct')
  constructor
  · intro before
    refine (facts.and before).imp ?_
    rintro d e ⟨⟨d_mem, e_mem, -, differ⟩, higher | ⟨-, le⟩⟩
    · right
      rw [← weighs' d d_mem, ← weighs' e e_mem]
      exact higher.ne'
    · exact .inl (lt_of_le_of_ne le differ)
  · intro apart
    refine (facts.and apart).imp ?_
    rintro d e ⟨⟨d_mem, e_mem, le, -⟩, ascend | differ⟩
    · exact le.lt_or_eq.imp_right fun tied => ⟨tied.symm, ascend.le⟩
    · rw [← weighs' d d_mem, ← weighs' e e_mem] at differ
      exact .inl (lt_of_le_of_ne le differ.symm)

variable {alpha : K}

theorem lexical_keeps_iff (distinct : (ids list).Nodup) (ordered : InOrder list) (nonneg : 0 ≤ alpha)
    (le_one : alpha ≤ 1) (n : ScoreNormalization) :
    KeepsOrder fl sqrt list [] alpha n ↔ KeptApart fl (fl (1 - alpha)) (normalize fl sqrt list n) := by
  obtain ⟨out, returned, ranks⟩ := weighted_ranks_fused fl sqrt nonneg le_one distinct
    nodup_ids_nil n
  have same : (pool (ids list) (ids ([] : List (ScoredDoc K)))).Perm (ids list) := by
    rw [pool, show ids ([] : List (ScoredDoc K)) = [] from rfl, List.append_nil, distinct.dedup]
  have keys_distinct : (Dict.keys (normalize fl sqrt list n)).Nodup := by
    rwa [keys_normalize fl sqrt distinct]
  rw [← ranks_single_iff fl sqrt distinct ordered (fl.nonneg (sub_nonneg.mpr le_one)) n same ?_ ranks,
    KeepsOrder, returned]
  · simp
  · intro a mem
    have found : (normalize fl sqrt list n).lookup a.1 = some a.2 := Dict.lookup_of_mem keys_distinct mem
    rw [fused, normalize_nil, found, Option.getD_some, List.lookup_nil, Option.getD_none, List.map_nil,
      show floorOf ([] : List K) = 0 from rfl, mul_zero, fl.zero, zero_add, fl.idem]

theorem dense_keeps_iff (distinct : (ids list).Nodup) (ordered : InOrder list) (nonneg : 0 ≤ alpha)
    (le_one : alpha ≤ 1) (n : ScoreNormalization) :
    KeepsOrder fl sqrt [] list alpha n ↔ KeptApart fl alpha (normalize fl sqrt list n) := by
  obtain ⟨out, returned, ranks⟩ := weighted_ranks_fused fl sqrt nonneg le_one nodup_ids_nil
    distinct n
  have same : (pool (ids ([] : List (ScoredDoc K))) (ids list)).Perm (ids list) := by
    rw [pool, show ids ([] : List (ScoredDoc K)) = [] from rfl, List.nil_append, distinct.dedup]
  have keys_distinct : (Dict.keys (normalize fl sqrt list n)).Nodup := by
    rwa [keys_normalize fl sqrt distinct]
  rw [← ranks_single_iff fl sqrt distinct ordered nonneg n same ?_ ranks, KeepsOrder, returned]
  · simp
  · intro a mem
    have found : (normalize fl sqrt list n).lookup a.1 = some a.2 := Dict.lookup_of_mem keys_distinct mem
    rw [fused, normalize_nil, found, Option.getD_some, List.lookup_nil, Option.getD_none, List.map_nil,
      show floorOf ([] : List K) = 0 from rfl, mul_zero, fl.zero, add_zero, fl.idem]

omit [IsStrictOrderedRing K] in
/-- The weight 0 leaves nothing apart. -/
theorem keptApart_zero_iff (scored : List (FusedDoc K)) :
    KeptApart fl 0 scored ↔ (Dict.keys scored).Pairwise (· < ·) := by
  rw [KeptApart, Dict.keys, List.pairwise_map]
  simp only [zero_mul, ne_eq, not_true_eq_false, or_false]

end Single

/-- **In exact arithmetic** no other weight brings scores together. -/
theorem keptApart_exact_iff {sqrt : K → K} (sqrt_pos : ∀ x, 0 < x → 0 < sqrt x)
    {list : List (ScoredDoc K)} (distinct : (ids list).Nodup) (ordered : InOrder list) (w : K)
    (n : ScoreNormalization) :
    KeptApart (.exact K) w (normalize (.exact K) sqrt list n) ↔
      w ≠ 0 ∨ (ids list).Pairwise (· < ·) := by
  by_cases zero : w = 0
  · rw [zero, keptApart_zero_iff, keys_normalize _ sqrt distinct]
    simp only [ne_eq, not_true_eq_false, false_or]
  · refine iff_of_true ?_ (.inl zero)
    obtain ⟨f, mapped, increasing⟩ := normalise_eq_map sqrt_pos (list.map ScoredDoc.score) (tunerNorm n)
    have scored : normalize (.exact K) sqrt list n = list.map fun d => (d.docId, f d.score) := by
      rw [normalize_eq sqrt_pos distinct, normOf, mapped, List.map_map, ids, List.zip_map']
      rfl
    rw [KeptApart, scored, List.pairwise_map]
    refine (List.Pairwise.and_mem.mp ordered).imp ?_
    rintro d e ⟨d_mem, e_mem, lower | tied⟩
    · right
      have less := increasing _ (List.mem_map_of_mem e_mem) _ (List.mem_map_of_mem d_mem) lower
      exact fun same => less.ne' (mul_left_cancel₀ zero same)
    · exact .inl tied.2

/-- Candidates with scores that differ by little. -/
def near : List (ScoredDoc ℚ) :=
  [⟨9, 1, by decide +kernel⟩, ⟨5, 1 / 2 ^ 60, by decide +kernel⟩, ⟨3, 0, by decide +kernel⟩,
    ⟨1, -1, by decide +kernel⟩]

/-- `double`s bring the two scores in the middle together. -/
example : ¬ KeptApart .double (1 / 2) (normalize .double id near .minMax) := by
  unfold KeptApart
  decide +kernel

-- A proof with a name, for the numeral 2 of `better`.
local instance atLeastTwo : Nat.AtLeastTwo 2 := ⟨le_rfl⟩

/-- Two candidates in ranking order, the better one with the higher id. -/
def better : List (ScoredDoc ℝ) :=
  [⟨5, 2, by norm_num [floatMax]⟩, ⟨3, 1, by norm_num [floatMax]⟩]

theorem better_inOrder : InOrder better := by
  simp [InOrder, better]

/-- `x` is at least as good as `y` by rank: a document that is not in the list is no better than any. -/
def RankedAbove (list : List ℕ) (x y : ℕ) : Prop := y ∈ list → x ∈ list ∧ list.idxOf x ≤ list.idxOf y

/-- `x` is at least as good as `y` by score. -/
def ScoredAbove (list : List (ScoredDoc K)) (x y : ℕ) : Prop :=
  ∀ d ∈ list, d.docId = y → ∃ e ∈ list, e.docId = x ∧ d.score ≤ e.score

/-- Every document of either list, once, in ranking order. -/
def Complete (lexical dense : List (ScoredDoc K)) (out : List (FusedDoc K)) : Prop :=
  (out.map Prod.fst).Nodup ∧ (∀ i, i ∈ out.map Prod.fst ↔ i ∈ ids lexical ∨ i ∈ ids dense) ∧
    out.Pairwise (Before id)

def RrfRespects (lexical dense : List (ScoredDoc K)) (k : Int) : Prop :=
  ∃ out, reciprocalRank (.exact K) [lexical, dense] k = .ok out ∧ Complete lexical dense out ∧
    ∀ x sx y sy, (x, sx) ∈ out → (y, sy) ∈ out →
      RankedAbove (ids lexical) x y → RankedAbove (ids dense) x y → sy ≤ sx ∧ (x ≠ y → sy < sx)

def WeightedRespects (sqrt : K → K) (lexical dense : List (ScoredDoc K)) (alpha : K)
    (n : ScoreNormalization) : Prop :=
  ∃ out, weighted (.exact K) sqrt lexical dense alpha n = .ok out ∧ Complete lexical dense out ∧
    ∀ x sx y sy, (x, sx) ∈ out → (y, sy) ∈ out →
      ScoredAbove lexical x y → ScoredAbove dense x y → sy ≤ sx

/-- The value of an absent document is not above any the list returned. -/
def FloorLow (sqrt : K → K) (list : List (ScoredDoc K)) (n : ScoreNormalization) : Prop :=
  ∀ v ∈ (normalize (.exact K) sqrt list n).map Prod.snd,
    floorOf ((normalize (.exact K) sqrt list n).map Prod.snd) ≤ v

structure RespectsAgreement (sqrt : K → K) (lexical dense : List (ScoredDoc K)) (k : Int) (alpha : K) :
    Prop where
  rrf : RrfRespects lexical dense k
  weighted : ∀ n, WeightedRespects sqrt lexical dense alpha n
  lexicalFloor : ∀ n, FloorLow sqrt lexical n
  denseFloor : ∀ n, FloorLow sqrt dense n

omit [IsStrictOrderedRing K] in
theorem Complete.of_ranks {lexical dense : List (ScoredDoc K)} {score : ℕ → K} {out : List (FusedDoc K)}
    (ranks : Ranks id (pool (ids lexical) (ids dense)) score out) : Complete lexical dense out := by
  have same : (out.map Prod.fst).Perm (pool (ids lexical) (ids dense)) := by
    have entries := ranks.entries.map Prod.fst
    rwa [List.map_map, show (Prod.fst ∘ fun i => (i, score i)) = id from rfl, List.map_id] at entries
  exact ⟨same.nodup_iff.mpr (List.nodup_dedup _), fun i => by rw [same.mem_iff, mem_pool], ranks.ordered⟩

omit [IsStrictOrderedRing K] in
theorem floorOf_le {values : List K} {v : K} (mem : v ∈ values) : floorOf values ≤ v :=
  (extremes_of_mem mem).1

omit [IsStrictOrderedRing K] in
theorem floorOf_le_level (items : List ℕ) (values : List K) (i : ℕ) :
    floorOf values ≤ level items values i := by
  rw [level]
  cases found : (items.zip values).lookup i with
  | none => exact le_rfl
  | some v =>
      obtain ⟨front, back, split, -⟩ := List.lookup_eq_some_iff.mp found
      have listed : (i, v) ∈ items.zip values := by rw [split]; simp
      exact floorOf_le (List.of_mem_zip listed).2

omit [IsStrictOrderedRing K] in
theorem floorLow (sqrt : K → K) (list : List (ScoredDoc K)) (n : ScoreNormalization) :
    FloorLow sqrt list n := fun _ mem => floorOf_le mem

/-- A list gives more to the better document. -/
theorem level_le {sqrt : K → K} (sqrt_pos : ∀ x, 0 < x → 0 < sqrt x) {list : List (ScoredDoc K)}
    (distinct : (ids list).Nodup) (n : ScoreNormalization) {x y : ℕ} (above : ScoredAbove list x y) :
    level (ids list) (normOf sqrt n list) y ≤ level (ids list) (normOf sqrt n list) x := by
  obtain ⟨f, increasing, own, absent⟩ := level_spec sqrt_pos distinct n
  by_cases y_mem : y ∈ ids list
  · obtain ⟨d, d_mem, rfl⟩ := List.mem_map.mp y_mem
    obtain ⟨e, e_mem, rfl, le⟩ := above d d_mem rfl
    rw [own d d_mem, own e e_mem]
    rcases le.lt_or_eq with less | same
    · exact (increasing d d_mem e e_mem less).le
    · rw [same]
  · rw [absent y y_mem]
    exact floorOf_le_level _ _ x

theorem weighted_respects {sqrt : K → K} (sqrt_pos : ∀ x, 0 < x → 0 < sqrt x)
    {lexical dense : List (ScoredDoc K)} {alpha : K} (nonneg : 0 ≤ alpha) (le_one : alpha ≤ 1)
    (lex_distinct : (ids lexical).Nodup) (dense_distinct : (ids dense).Nodup) (n : ScoreNormalization) :
    WeightedRespects sqrt lexical dense alpha n := by
  obtain ⟨out, returned, ranks⟩ := weighted_ranks sqrt_pos nonneg le_one lex_distinct dense_distinct n
  refine ⟨out, returned, .of_ranks ranks, fun x sx y sy x_mem y_mem lex_above dense_above => ?_⟩
  rw [← (ranks.mem_iff.mp x_mem).2, ← (ranks.mem_iff.mp y_mem).2, blend, blend]
  exact add_le_add (mul_le_mul_of_nonneg_left (level_le sqrt_pos dense_distinct n dense_above) nonneg)
    (mul_le_mul_of_nonneg_left (level_le sqrt_pos lex_distinct n lex_above) (sub_nonneg.mpr le_one))

/-! ## Reciprocal ranks that wrap -/

omit [LinearOrder K] [IsStrictOrderedRing K] in
/-- From the wrap on, a rank is worth the less the lower the wrapped sum is. -/
theorem worth32_wrapped {k : Int} {n : ℕ} (int : k < 2 ^ 31) (rank : n < 2 ^ 31) (wraps : 2 ^ 31 ≤ k + n) :
    (worth32 k n : K) = -(1 / ((2 ^ 32 - k - n : Int) : K)) := by
  have wrapped : add32 k n = -(2 ^ 32 - k - n) := by
    rw [add32, Int.bmod_def]
    split_ifs <;> omega
  rw [worth32, wrapped, Int.cast_neg, div_neg]

/-- **A lower rank is worth more, wrapped or not.** -/
theorem worth32_strictAnti {k : Int} (nonneg : 0 ≤ k) (int : k < 2 ^ 31) {m n : ℕ} (positive : 0 < m)
    (less : m < n) (rank : n < 2 ^ 31) : (worth32 k n : K) < worth32 k m := by
  have plain (i : ℕ) (small : k + i < 2 ^ 31) : add32 k i = k + i := add32_of_lt (by omega) small
  have wrapped (i : ℕ) (rank : i < 2 ^ 31) (wraps : 2 ^ 31 ≤ k + i) : add32 k i = k + i - 2 ^ 32 := by
    rw [add32, Int.bmod_def]
    split_ifs <;> omega
  rw [worth32, worth32]
  by_cases n_small : k + n < 2 ^ 31
  · rw [plain n n_small, plain m (by omega)]
    exact one_div_lt_one_div_of_lt (Int.cast_pos.mpr (by omega)) (Int.cast_lt.mpr (by omega))
  · rw [wrapped n rank (by omega)]
    have negative : ((k + n - 2 ^ 32 : Int) : K) < 0 := Int.cast_lt_zero.mpr (by omega)
    by_cases m_small : k + m < 2 ^ 31
    · rw [plain m m_small]
      exact (one_div_neg.mpr negative).trans (one_div_pos.mpr (Int.cast_pos.mpr (by omega)))
    · rw [wrapped m (by omega) (by omega)]
      exact one_div_lt_one_div_of_neg_of_lt negative (Int.cast_lt.mpr (by omega))

/-- Below the wrap a rank is worth more than nothing. -/
theorem worth32_pos {k : Int} (nonneg : 0 ≤ k) {n : ℕ} (positive : 0 < n) (small : k + n < 2 ^ 31) :
    (0 : K) < worth32 k n := by
  rw [worth32, add32_of_lt (by omega) small]
  exact one_div_pos.mpr (Int.cast_pos.mpr (by omega))

/-- The lead of rank `m` over rank `n` makes up for the rank `r` that wraps, in whole numbers. -/
@[irreducible] def MakesUp (k : Int) (r m n : ℕ) : Prop :=
  if k + n < 2 ^ 31 then (k + m) * (k + n) < (2 ^ 32 - k - r) * (n - m)
  else if k + m < 2 ^ 31 then (k + m) * (2 ^ 32 - k - n) < (2 ^ 32 - k - r) * (2 ^ 32 + m - n)
  else (2 ^ 32 - k - m) * (2 ^ 32 - k - n) < (2 ^ 32 - k - r) * (n - m)

/-- Where the rank of `x` wraps in one list and `y` is not in that list, the lead of `x` over
`y` in the other list makes up for it. -/
def WrapsHarmlessly (k : Int) (list other : List ℕ) : Prop :=
  ∀ x ∈ list, ∀ y ∈ other, y ∉ list → x ∈ other → other.idxOf x < other.idxOf y →
    2 ^ 31 ≤ k + (list.idxOf x + 1 : ℕ) →
      MakesUp k (list.idxOf x + 1) (other.idxOf x + 1) (other.idxOf y + 1)

theorem one_div_lt_sub_iff {a b d : K} (a_pos : 0 < a) (b_pos : 0 < b) (d_pos : 0 < d) :
    1 / d < 1 / a - 1 / b ↔ a * b < d * (b - a) := by
  rw [div_sub_div _ _ a_pos.ne' b_pos.ne', div_lt_div_iff₀ d_pos (mul_pos a_pos b_pos), one_mul, one_mul,
    mul_one, mul_comm d]

theorem one_div_lt_add_iff {a b d : K} (a_pos : 0 < a) (b_pos : 0 < b) (d_pos : 0 < d) :
    1 / d < 1 / a + 1 / b ↔ a * b < d * (a + b) := by
  rw [div_add_div _ _ a_pos.ne' b_pos.ne', div_lt_div_iff₀ d_pos (mul_pos a_pos b_pos), one_mul, one_mul,
    mul_one, mul_comm d, add_comm b]

/-- **The lead in whole numbers** is the lead of the reciprocals. -/
theorem makesUp_iff {k : Int} (nonneg : 0 ≤ k) (int : k < 2 ^ 31) {r m n : ℕ} (rank : r < 2 ^ 31)
    (positive : 0 < m) (less : m < n) (rank' : n < 2 ^ 31) :
    1 / ((2 ^ 32 - k - r : Int) : K) < worth32 k m - worth32 k n ↔ MakesUp k r m n := by
  have debt : (0 : K) < ((2 ^ 32 - k - r : Int) : K) := Int.cast_pos.mpr (by omega)
  have plain {i : ℕ} (small : k + i < 2 ^ 31) : (worth32 k i : K) = 1 / ((k + i : Int) : K) := by
    rw [worth32, add32_of_lt (by omega) small]
  rw [MakesUp]
  split_ifs with n_small m_small
  · rw [plain n_small, plain (by omega), one_div_lt_sub_iff (Int.cast_pos.mpr (by omega))
      (Int.cast_pos.mpr (by omega)) debt, ← Int.cast_sub, ← Int.cast_mul, ← Int.cast_mul, Int.cast_lt,
      add_sub_add_left_eq_sub]
  · rw [plain m_small, worth32_wrapped int rank' (not_lt.mp n_small), sub_neg_eq_add,
      one_div_lt_add_iff (Int.cast_pos.mpr (by omega)) (Int.cast_pos.mpr (by omega)) debt, ← Int.cast_add,
      ← Int.cast_mul, ← Int.cast_mul, Int.cast_lt,
      show k + (m : Int) + (2 ^ 32 - k - n) = 2 ^ 32 + m - n by omega]
  · rw [worth32_wrapped int (by omega) (not_lt.mp m_small), worth32_wrapped int rank' (not_lt.mp n_small),
      sub_neg_eq_add, neg_add_eq_sub, one_div_lt_sub_iff (Int.cast_pos.mpr (by omega))
      (Int.cast_pos.mpr (by omega)) debt, ← Int.cast_sub, ← Int.cast_mul, ← Int.cast_mul, Int.cast_lt,
      sub_sub_sub_cancel_left, mul_comm]

section Reciprocals

variable {k : Int} {list other : List ℕ} {x y : ℕ}

/-- A list that has both gives more to the better document. -/
theorem share_lt_of_above (nonneg : 0 ≤ k) (int : k < 2 ^ 31) (count : list.length < 2 ^ 31) (differ : x ≠ y)
    (y_mem : y ∈ list) (above : RankedAbove list x y) :
    (share (worth32 k) list y : K) < share (worth32 k) list x := by
  obtain ⟨x_mem, le⟩ := above y_mem
  have inside := List.idxOf_lt_length_of_mem y_mem
  have less : list.idxOf x < list.idxOf y := lt_of_le_of_ne le fun same =>
    differ ((List.idxOf_inj x_mem).mp same)
  rw [share, share, if_pos x_mem, if_pos y_mem]
  exact worth32_strictAnti nonneg int (Nat.succ_pos _) (by omega) (by omega)

/-- A list that does not have `y`, beside one that has both. -/
theorem share_lt_of_absent (nonneg : 0 ≤ k) (int : k < 2 ^ 31) (list_count : list.length < 2 ^ 31)
    (other_count : other.length < 2 ^ 31) (differ : x ≠ y) (harmless : WrapsHarmlessly k list other)
    (y_absent : y ∉ list) (y_mem : y ∈ other) (above : RankedAbove other x y) :
    (share (worth32 k) list y + share (worth32 k) other y : K) <
      share (worth32 k) list x + share (worth32 k) other x := by
  have lead : (share (worth32 k) other y : K) < share (worth32 k) other x :=
    share_lt_of_above nonneg int other_count differ y_mem above
  rw [show (share (worth32 k) list y : K) = 0 from if_neg y_absent, zero_add]
  by_cases x_mem : x ∈ list
  · have inside := List.idxOf_lt_length_of_mem x_mem
    have own : (share (worth32 k) list x : K) = worth32 k (list.idxOf x + 1) := if_pos x_mem
    by_cases small : k + (list.idxOf x + 1 : ℕ) < 2 ^ 31
    · rw [own]
      exact lead.trans (lt_add_of_pos_left _ (worth32_pos nonneg (Nat.succ_pos _) small))
    · obtain ⟨x_other, le⟩ := above y_mem
      have less : other.idxOf x < other.idxOf y := lt_of_le_of_ne le fun same =>
        differ ((List.idxOf_inj x_other).mp same)
      have ahead := (makesUp_iff (K := K) nonneg int (by omega) (Nat.succ_pos _) (by omega)
        (by have y_inside := List.idxOf_lt_length_of_mem y_mem; omega)).mpr
        (harmless x x_mem y y_mem y_absent x_other less (not_lt.mp small))
      rw [own, worth32_wrapped int (by omega) (not_lt.mp small), share, share, if_pos x_other, if_pos y_mem]
      linarith
  · rw [show (share (worth32 k) list x : K) = 0 from if_neg x_mem, zero_add]
    exact lead

/-- **Strict agreement**: the better of two documents is worth more in both lists together. -/
theorem shares_lt (nonneg : 0 ≤ k) (int : k < 2 ^ 31) (list_count : list.length < 2 ^ 31)
    (other_count : other.length < 2 ^ 31) (list_harmless : WrapsHarmlessly k list other)
    (other_harmless : WrapsHarmlessly k other list) (differ : x ≠ y) (listed : y ∈ list ∨ y ∈ other)
    (list_above : RankedAbove list x y) (other_above : RankedAbove other x y) :
    (share (worth32 k) list y + share (worth32 k) other y : K) <
      share (worth32 k) list x + share (worth32 k) other x := by
  by_cases y_list : y ∈ list
  · by_cases y_other : y ∈ other
    · exact add_lt_add (share_lt_of_above nonneg int list_count differ y_list list_above)
        (share_lt_of_above nonneg int other_count differ y_other other_above)
    · have sum := share_lt_of_absent (K := K) nonneg int other_count list_count differ other_harmless y_other
        y_list list_above
      rwa [add_comm, add_comm (share (worth32 k) list x)]
  · exact share_lt_of_absent nonneg int list_count other_count differ list_harmless y_list
      (listed.resolve_left y_list) other_above

/-- Where the sums agree with the lists, no wrap does harm. -/
theorem harmless_of_shares (nonneg : 0 ≤ k) (int : k < 2 ^ 31) (list_count : list.length < 2 ^ 31)
    (other_count : other.length < 2 ^ 31)
    (agree : ∀ x ∈ list, ∀ y ∈ other, x ≠ y → RankedAbove list x y → RankedAbove other x y →
      (share (worth32 k) list y + share (worth32 k) other y : K) <
        share (worth32 k) list x + share (worth32 k) other x) : WrapsHarmlessly k list other := by
  intro x x_mem y y_mem y_absent x_other less wraps
  have inside := List.idxOf_lt_length_of_mem x_mem
  have y_inside := List.idxOf_lt_length_of_mem y_mem
  have lead := agree x x_mem y y_mem (fun same => y_absent (same ▸ x_mem))
    (fun y_list => absurd y_list y_absent) (fun _ => ⟨x_other, less.le⟩)
  rw [share, share, share, share, if_neg y_absent, if_pos y_mem, if_pos x_mem, if_pos x_other,
    worth32_wrapped int (by omega) wraps] at lead
  rw [← makesUp_iff (K := K) nonneg int (by omega) (Nat.succ_pos _) (by omega) (by omega)]
  linarith

end Reciprocals

theorem rrfRespects_iff {lexical dense : List (ScoredDoc K)} (lex_distinct : (ids lexical).Nodup)
    (dense_distinct : (ids dense).Nodup) (lex_count : lexical.length < 2 ^ 31)
    (dense_count : dense.length < 2 ^ 31) {k : Int} (nonneg : 0 ≤ k) (int : k < 2 ^ 31) :
    RrfRespects lexical dense k ↔
      WrapsHarmlessly k (ids lexical) (ids dense) ∧ WrapsHarmlessly k (ids dense) (ids lexical) := by
  have lex_len : (ids lexical).length < 2 ^ 31 := by rwa [ids, List.length_map]
  have dense_len : (ids dense).length < 2 ^ 31 := by rwa [ids, List.length_map]
  obtain ⟨out, returned, ranks⟩ :=
    reciprocalRank_ranks nonneg lex_distinct dense_distinct lex_count dense_count
  constructor
  · rintro ⟨out', returned', -, agree⟩
    cases returned.symm.trans returned'
    have scored {i : ℕ} (listed : i ∈ ids lexical ∨ i ∈ ids dense) :=
      ranks.mem_iff.mpr ⟨mem_pool.mpr listed, rfl⟩
    constructor
    · refine harmless_of_shares (K := K) nonneg int lex_len dense_len
        fun x x_mem y y_mem differ lex_above dense_above => ?_
      exact (agree x _ y _ (scored (.inl x_mem)) (scored (.inr y_mem)) lex_above dense_above).2 differ
    · refine harmless_of_shares (K := K) nonneg int dense_len lex_len
        fun x x_mem y y_mem differ dense_above lex_above => ?_
      rw [add_comm, add_comm (share (worth32 k) (ids dense) x)]
      exact (agree x _ y _ (scored (.inr x_mem)) (scored (.inl y_mem)) lex_above dense_above).2 differ
  · rintro ⟨lex_harmless, dense_harmless⟩
    refine ⟨out, returned, .of_ranks ranks, fun x sx y sy x_mem y_mem lex_above dense_above => ?_⟩
    obtain ⟨-, sx_is⟩ := ranks.mem_iff.mp x_mem
    obtain ⟨y_pool, sy_is⟩ := ranks.mem_iff.mp y_mem
    have strict (differ : x ≠ y) : sy < sx := by
      rw [← sx_is, ← sy_is]
      exact shares_lt nonneg int lex_len dense_len lex_harmless dense_harmless differ (mem_pool.mp y_pool)
        lex_above dense_above
    refine ⟨?_, strict⟩
    by_cases same : x = y
    · rw [← sx_is, ← sy_is, same]
    · exact (strict same).le

/-- **Fusion respects agreement** exactly where no wrapped rank outweighs a lead. -/
theorem respectsAgreement_iff {sqrt : K → K} (sqrt_pos : ∀ x, 0 < x → 0 < sqrt x)
    (lexical dense : List (ScoredDoc K)) (lex_distinct : (ids lexical).Nodup)
    (dense_distinct : (ids dense).Nodup) (lex_count : lexical.length < 2 ^ 31)
    (dense_count : dense.length < 2 ^ 31) (k : Int) (nonneg : 0 ≤ k) (int : k < 2 ^ 31)
    {alpha : K} (alpha_nonneg : 0 ≤ alpha) (alpha_le : alpha ≤ 1) :
    RespectsAgreement sqrt lexical dense k alpha ↔
      WrapsHarmlessly k (ids lexical) (ids dense) ∧ WrapsHarmlessly k (ids dense) (ids lexical) := by
  rw [← rrfRespects_iff lex_distinct dense_distinct lex_count dense_count nonneg int]
  refine ⟨RespectsAgreement.rrf, fun rrf => ⟨rrf, fun n => ?_, floorLow sqrt lexical, floorLow sqrt dense⟩⟩
  exact weighted_respects sqrt_pos alpha_nonneg alpha_le lex_distinct dense_distinct n

/-- Below the wrap nothing does harm. -/
theorem wrapsHarmlessly_of_lt {k : Int} {list other : List ℕ} (small : k + list.length < 2 ^ 31) :
    WrapsHarmlessly k list other := by
  intro x x_mem y _ _ _ _ wraps
  have inside := List.idxOf_lt_length_of_mem x_mem
  omega

theorem respectsAgreement_sixty :
    RespectsAgreement Real.sqrt better [unitDoc 5] 60 (1 / 2) := by
  apply (respectsAgreement_iff (fun _ => Real.sqrt_pos.mpr) better [unitDoc 5] (by decide) (by decide)
    (by decide) (by decide) 60 (by decide) (by decide) (by norm_num) (by norm_num)).mpr
  have lex_small : (60 : Int) + (ids better).length < 2 ^ 31 := by decide
  have dense_small : (60 : Int) + (ids [(unitDoc 5 : ScoredDoc ℝ)]).length < 2 ^ 31 := by decide
  exact ⟨wrapsHarmlessly_of_lt lex_small, wrapsHarmlessly_of_lt dense_small⟩

/-- With the greatest `int` as `k` the document that both lists have first comes out last. -/
theorem agreement_lost : ¬ RespectsAgreement Real.sqrt [unitDoc 1] [unitDoc 1, unitDoc 2] 2147483647 (1 / 2) := by
  intro respects
  have harmless : WrapsHarmlessly 2147483647 [1] [1, 2] :=
    ((rrfRespects_iff (by decide) (by decide) (by decide) (by decide) (by decide)
      (by decide)).mp respects.rrf).1
  have ahead := harmless 1 (by decide) 2 (by decide) (by decide) (by decide) (by decide) (by decide)
  exact absurd ahead (by unfold MakesUp; decide)

end HybridSearch.Broker.Fusion
