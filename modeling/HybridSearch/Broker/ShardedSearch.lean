/-
# Broker.ShardedSearch -- merging the answers of the shards

`mergeTopK` keeps the best score of every document that any slice returned and sorts.  What
it returns depends on the set of the hits alone (`mergeTopK_order_free`), and where no
document comes twice it is the best of them all (`mergeTopK_disjoint`).

* `sharded_search`: shards of a collection that are built with its statistics answer
  together what the index of the whole collection answers.
-/
import HybridSearch.Engine.CorpusSearch
import HybridSearch.Tuner.FusionAgreement

namespace HybridSearch.Broker.Fusion

open HybridSearch.Theory

set_option autoImplicit false

variable {K : Type} [LinearOrder K]

/-! ## MergeTopK -/

/-- The body of the loop over the hits of a slice. -/
def keepBest (best : List (FusedDoc K)) (d : FusedDoc K) : List (FusedDoc K) :=
  match best.lookup d.1 with
  | none => Dict.assign best d.1 d.2
  | some s => if d.2 > s then Dict.assign best d.1 d.2 else best

def mergeTopK (perSlice : List (List (FusedDoc K))) (k : Int) : Except String (List (FusedDoc K)) :=
  if k < 0 then .error "k"
  else .ok ((sortRanking (perSlice.foldl (fun best list => list.foldl keepBest best) [])).take k.toNat)

/-- The ranking order, as a comparison. -/
def rankLe (a b : FusedDoc K) : Bool := (compareRanking a.2 a.1 b.2 b.1).isLE

theorem rankLe_iff [Field K] (a b : FusedDoc K) : rankLe a b = true ↔ Ranking.Before id a b :=
  Tuner.compareRanking_isLE a b

theorem rankLe_linear [Field K] : BestK.Linear (rankLe (K := K)) where
  trans a b c first second :=
    (rankLe_iff a c).mpr (((rankLe_iff a b).mp first).trans ((rankLe_iff b c).mp second))
  total a b := by
    rw [Bool.or_eq_true, rankLe_iff, rankLe_iff]
    exact Ranking.Before.total id a b
  antisymm a b first second := by
    obtain ⟨score, doc⟩ := ((rankLe_iff a b).mp first).antisymm ((rankLe_iff b a).mp second)
    exact Prod.ext doc score

/-- The best score of every document that was hit. -/
structure BestOf (hits best : List (FusedDoc K)) : Prop where
  distinct : (Dict.keys best).Nodup
  known : ∀ h ∈ hits, h.1 ∈ Dict.keys best
  lookup : ∀ id s, best.lookup id = some s → (id, s) ∈ hits ∧ ∀ h ∈ hits, h.1 = id → h.2 ≤ s

namespace BestOf

variable {hits best : List (FusedDoc K)}

theorem start : BestOf ([] : List (FusedDoc K)) [] where
  distinct := List.nodup_nil
  known _ mem := absurd mem List.not_mem_nil
  lookup _ _ found := nomatch found

theorem assign (holds : BestOf hits best) {d : FusedDoc K} (better : ∀ h ∈ hits, h.1 = d.1 → h.2 ≤ d.2) :
    BestOf (hits ++ [d]) (Dict.assign best d.1 d.2) where
  distinct := Dict.nodup_assign holds.distinct _ _
  known h mem := by
    rw [Dict.mem_keys_assign]
    rcases List.mem_append.mp mem with old | last
    · exact .inr (holds.known h old)
    · exact .inl (congrArg Prod.fst (List.mem_singleton.mp last))
  lookup id s found := by
    rw [Dict.lookup_assign] at found
    split_ifs at found with same
    · cases found
      subst same
      refine ⟨List.mem_append_right _ (List.mem_singleton_self _), fun h mem own => ?_⟩
      rcases List.mem_append.mp mem with old | last
      · exact better h old own
      · rw [List.mem_singleton.mp last]
    · obtain ⟨mem, most⟩ := holds.lookup id s found
      refine ⟨List.mem_append_left _ mem, fun h mem own => ?_⟩
      rcases List.mem_append.mp mem with old | last
      · exact most h old own
      · rw [List.mem_singleton.mp last] at own
        exact absurd own.symm same

theorem keepBest (holds : BestOf hits best) (d : FusedDoc K) : BestOf (hits ++ [d]) (keepBest best d) := by
  rw [Fusion.keepBest]
  cases found : best.lookup d.1 with
  | none =>
      refine holds.assign fun h mem own => ?_
      have stored := Dict.isSome_lookup_iff.mpr (own ▸ holds.known h mem)
      rw [found] at stored
      cases stored
  | some s =>
      obtain ⟨mem, most⟩ := holds.lookup d.1 s found
      dsimp only
      split_ifs with better
      · exact holds.assign fun h old own => (most h old own).trans better.le
      · refine ⟨holds.distinct, fun h mem' => ?_, fun id s' found' => ?_⟩
        · rcases List.mem_append.mp mem' with old | last
          · exact holds.known h old
          · rw [List.mem_singleton.mp last]
            exact holds.known (d.1, s) mem
        · obtain ⟨mem', most'⟩ := holds.lookup id s' found'
          refine ⟨List.mem_append_left _ mem', fun h mem own => ?_⟩
          rcases List.mem_append.mp mem with old | last
          · exact most' h old own
          · rw [List.mem_singleton.mp last] at own ⊢
            rw [← own, found] at found'
            rw [← Option.some.inj found']
            exact not_lt.mp better

theorem foldl (hits : List (FusedDoc K)) : BestOf hits (hits.foldl Fusion.keepBest []) := by
  induction hits using List.reverseRecOn with
  | nil => exact start
  | append_singleton front d ih =>
      rw [List.foldl_append]
      exact ih.keepBest d

theorem nodup (holds : BestOf hits best) : best.Nodup := List.Nodup.of_map _ holds.distinct

theorem mem_iff (holds : BestOf hits best) {d : FusedDoc K} :
    d ∈ best ↔ d ∈ hits ∧ ∀ h ∈ hits, h.1 = d.1 → h.2 ≤ d.2 := by
  constructor
  · exact fun mem => holds.lookup d.1 d.2 (Dict.lookup_of_mem holds.distinct mem)
  · rintro ⟨mem, most⟩
    obtain ⟨entry, entry_mem, same⟩ := List.mem_map.mp (holds.known d mem)
    obtain ⟨hit, most'⟩ := holds.lookup entry.1 entry.2 (Dict.lookup_of_mem holds.distinct entry_mem)
    have equal : entry = d := Prod.ext same (le_antisymm (most entry hit same) (most' d mem same.symm))
    exact equal ▸ entry_mem

/-- The table depends on the set of the hits alone. -/
theorem perm {hits' best' : List (FusedDoc K)} (holds : BestOf hits best) (holds' : BestOf hits' best')
    (same : ∀ h, h ∈ hits ↔ h ∈ hits') : best.Perm best' := by
  refine (List.perm_ext_iff_of_nodup holds.nodup holds'.nodup).mpr fun d => ?_
  rw [holds.mem_iff, holds'.mem_iff]
  simp only [same]

/-- Where no document comes twice the table is the hits. -/
theorem perm_hits (holds : BestOf hits best) (distinct : (Dict.keys hits).Nodup) : best.Perm hits := by
  refine (List.perm_ext_iff_of_nodup holds.nodup (List.Nodup.of_map _ distinct)).mpr fun d => ?_
  refine holds.mem_iff.trans ⟨fun both => both.1, fun mem => ⟨mem, fun h hit own => ?_⟩⟩
  have equal : h = d := List.inj_on_of_nodup_map distinct hit mem own
  rw [equal]

end BestOf

/-- What `MergeTopK` keeps of every document. -/
theorem mergeTopK_eq (perSlice : List (List (FusedDoc K))) {k : Int} (nonneg : 0 ≤ k) :
    mergeTopK perSlice k = .ok (BestK.best rankLe k.toNat (perSlice.flatten.foldl keepBest [])) := by
  rw [mergeTopK, if_neg (not_lt.mpr nonneg), List.foldl_flatten]
  rfl

/-- **The merge depends on the set of the hits alone**: not on which slice returned a hit, how often,
or in which order the slices answered. -/
theorem mergeTopK_order_free [Field K] {perSlice perSlice' : List (List (FusedDoc K))}
    (same : ∀ h, h ∈ perSlice.flatten ↔ h ∈ perSlice'.flatten) (k : Int) :
    mergeTopK perSlice k = mergeTopK perSlice' k := by
  rcases lt_or_ge k 0 with negative | nonneg
  · rw [mergeTopK, if_pos negative, mergeTopK, if_pos negative]
  · rw [mergeTopK_eq perSlice nonneg, mergeTopK_eq perSlice' nonneg]
    exact congrArg Except.ok
      (BestK.best_perm rankLe_linear _ ((BestOf.foldl perSlice.flatten).perm (BestOf.foldl perSlice'.flatten) same))

/-- A document that two slices return, with a better score in the second. -/
theorem mergeTopK_order_free_two :
    mergeTopK [[(7, (2 : ℚ)), (3, 1)], [(7, 5)]] 2 = mergeTopK [[(7, (5 : ℚ))], [(3, 1)], [(7, 2), (3, 1)]] 2 :=
  mergeTopK_order_free (by simp only [List.flatten_cons, List.flatten_nil, List.mem_append, List.mem_cons]; tauto) 2

/-- **Slices with documents of their own** are merged to the best of all their hits. -/
theorem mergeTopK_disjoint [Field K] {perSlice : List (List (FusedDoc K))} (distinct : (Dict.keys perSlice.flatten).Nodup)
    {k : Int} (nonneg : 0 ≤ k) : mergeTopK perSlice k = .ok (BestK.best rankLe k.toNat perSlice.flatten) := by
  rw [mergeTopK_eq perSlice nonneg]
  exact congrArg Except.ok (BestK.best_perm rankLe_linear _ ((BestOf.foldl perSlice.flatten).perm_hits distinct))

end HybridSearch.Broker.Fusion

namespace HybridSearch.Broker

open HybridSearch.Theory HybridSearch.Engine Fusion

set_option autoImplicit false

/-! ## What an engine replies -/

/-- The hits of a search under the global ids of their documents. -/
def globalHits (ix : LexicalIndex) (hits : List Engine.ScoredDoc) : List (FusedDoc ℚ) :=
  hits.map fun h => (ix.docids.getD h.doc 0, h.score)

/-- The engine replies with these hits, on every codec, with every algorithm and on any clean scratch. -/
def Replies (P : Platform) (query : SearchOptions) (rawTerms : List Bytes) (ix : LexicalIndex)
    (reply : List (FusedDoc ℚ)) : Prop :=
  ∀ (algorithm : Algorithm) (codec : Codec) (s : Scratch), s.Clean →
    ∃ result, ix.search P rawTerms { query with algorithm, codec } .unlimited s = .ok result ∧
      result.isPartial = false ∧ globalHits ix result.hits = reply

/-- The documents that match, with their global ids and their scores. -/
def scoredIds (P : Platform) (C : Collection) (opt : SearchOptions) (uniq : List (Bytes × Nat)) (docs : List Doc) :
    List (FusedDoc ℚ) :=
  (docs.filter fun doc => decide (doc.Matches uniq)).map fun doc => (doc.pid, C.score P opt uniq doc)

section Reply

variable {P : Platform} {C : Collection} {opt : SearchOptions} {uniq : List (Bytes × Nat)} {docs : List Doc}

theorem map_scoredDocs : (scoredDocs P C opt uniq docs).map (fun h => ((docs.map Doc.pid).getD h.doc 0, h.score)) =
    scoredIds P C opt uniq docs := by
  have fst : docs.zipIdx.map Prod.fst = docs := List.zipIdx_map_fst 0 docs
  rw [scoredDocs, List.map_map, scoredIds]
  conv_rhs => rw [← fst, List.filter_map, List.map_map]
  refine List.map_congr_left fun x mem => ?_
  have at_x := List.mem_zipIdx_iff_getElem?.mp (List.mem_of_mem_filter mem)
  simp only [Function.comp, List.getD_eq_getElem?_getD, List.getElem?_map, at_x, Option.map_some, Option.getD_some]

/-- **Ordinals rank as global ids do** when these ascend. -/
theorem global_best (ascending : (docs.map Doc.pid).Pairwise (· < ·)) (k : Nat) :
    (BestK.best ranksLe k (scoredDocs P C opt uniq docs)).map (fun h => ((docs.map Doc.pid).getD h.doc 0, h.score)) =
      BestK.best rankLe k (scoredIds P C opt uniq docs) := by
  have inside {h : Engine.ScoredDoc} (mem : h ∈ scoredDocs P C opt uniq docs) : h.doc < (docs.map Doc.pid).length := by
    obtain ⟨x, selected, rfl⟩ := List.mem_map.mp mem
    have at_x := List.mem_zipIdx_iff_getElem?.mp (List.mem_of_mem_filter selected)
    rw [List.length_map]
    exact (List.getElem?_eq_some_iff.mp at_x).1
  have sameOrder : ∀ a ∈ scoredDocs P C opt uniq docs, ∀ b ∈ scoredDocs P C opt uniq docs, ranksLe a b =
      rankLe ((docs.map Doc.pid).getD a.doc 0, a.score) ((docs.map Doc.pid).getD b.doc 0, b.score) := by
    intro a mem b mem'
    have ids : (docs.map Doc.pid).getD a.doc 0 ≤ (docs.map Doc.pid).getD b.doc 0 ↔ a.doc ≤ b.doc := by
      rw [List.getD_eq_getElem _ _ (inside mem), List.getD_eq_getElem _ _ (inside mem')]
      constructor
      · intro le
        by_contra more
        exact absurd (List.pairwise_iff_getElem.mp ascending _ _ (inside mem') (inside mem) (Nat.not_le.mp more))
          (Nat.not_lt.mpr le)
      · intro le
        rcases Nat.lt_or_eq_of_le le with less | same
        · exact (List.pairwise_iff_getElem.mp ascending _ _ (inside mem) (inside mem') less).le
        · simp only [same, le_refl]
    rw [Bool.eq_iff_iff, rankLe_iff, ranksLe, decide_eq_true_eq, Ranking.Before, id, id, ids, Scored.ranksBefore]
    obtain ⟨d, x⟩ := a
    obtain ⟨e, y⟩ := b
    simp only [Engine.Scored.mk.injEq]
    rcases lt_trichotomy x y with less | rfl | more
    · simp only [less.ne, ne_eq, not_false_eq_true, if_true, not_lt.mpr less.le, and_false, false_and, or_self]
    · simp only [ne_eq, not_true_eq_false, if_false, and_true, lt_irrefl, true_and, false_or]
      omega
    · simp only [more.ne', ne_eq, not_false_eq_true, if_true, more, and_false, true_or, or_true]
  rw [BestK.best, List.map_take, List.map_mergeSort sameOrder, map_scoredDocs]
  rfl

/-- **What an index of some of the documents replies.** -/
theorem Serving.replies {all : List Doc} {ix : LexicalIndex} (serving : Serving P docs all ix) (valid : opt.Valid)
    (few : docs.length ≤ kEnd) (ascending : (docs.map Doc.pid).Pairwise (· < ·)) (rawTerms : List Bytes) :
    Replies P opt rawTerms ix
      (BestK.best rankLe opt.k (scoredIds P (Collection.of all) opt (clauses rawTerms) docs)) := by
  intro algorithm codec s clean
  have ends : ∃ result, ix.search P rawTerms { opt with algorithm, codec } .unlimited s = .ok result ∧
      Answers (ranked P (Collection.of all) { opt with algorithm, codec } rawTerms docs)
        { opt with algorithm, codec } .unlimited result :=
    serving.answers { opt with algorithm, codec } ⟨valid.k1, valid.bNonneg, valid.bLe⟩ rawTerms .unlimited s clean
  obtain ⟨result, ran, answers⟩ := ends
  have uncut := answers.uncut rfl
  refine ⟨result, ran, uncut, ?_⟩
  rw [answers.whole uncut, ranked, List.take_of_length_le few, globalHits, serving.docids]
  exact global_best ascending opt.k

end Reply

/-! ## Shards -/

/-- The input of one run of the index builder. -/
structure Shard where
  opt : BuildOptions
  chunks : List (List Doc)

namespace Shard

/-- The documents of its partition. -/
def docs (shard : Shard) : List Doc := kept shard.opt shard.chunks.flatten

/-- The builder takes the input, and global ids ascend in it. -/
structure Ready (shard : Shard) : Prop where
  codecs : shard.opt.codecs ≠ []
  fits : Indexable (fun c => decide (c ∈ shard.opt.codecs)) shard.docs
  ascending : (shard.docs.map Doc.pid).Pairwise (· < ·)

/-- The index that is built of the input, and opened. -/
def Opens (P : Platform) (hash : Bytes → Nat) (dir : String) (global : Option LexicalIndex) (shard : Shard)
    (ix : LexicalIndex) : Prop :=
  ∃ files, buildIndex P hash shard.opt global shard.chunks = .ok files ∧ openIndex P dir files = .ok ix

end Shard

section Sharded

variable {P : Platform} {whole : Shard} {shards : List Shard}

theorem keys_scoredIds (C : Collection) (opt : SearchOptions) (uniq : List (Bytes × Nat)) {docs : List Doc}
    (ascending : (docs.map Doc.pid).Pairwise (· < ·)) : (Dict.keys (scoredIds P C opt uniq docs)).Nodup := by
  have keys : Dict.keys (scoredIds P C opt uniq docs) =
      (docs.filter fun doc => decide (doc.Matches uniq)).map Doc.pid := by
    rw [Dict.keys, scoredIds, List.map_map]
    rfl
  rw [keys]
  exact (ascending.imp fun {a b} less => less.ne).sublist (List.filter_sublist.map _)

theorem exists_forall₂ {α β : Type} {R : α → β → Prop} {xs : List α} (each : ∀ x ∈ xs, ∃ y, R x y) :
    ∃ ys, List.Forall₂ R xs ys := by
  induction xs with
  | nil => exact ⟨[], .nil⟩
  | cons x rest ih =>
      obtain ⟨⟨y, here⟩, each⟩ := List.forall_mem_cons.mp each
      obtain ⟨ys, more⟩ := ih each
      exact ⟨y :: ys, .cons here more⟩

/-- Merging the bests of the shards gives the best of the whole. -/
theorem merge_scoredIds (C : Collection) (opt : SearchOptions) (uniq : List (Bytes × Nat))
    (ascending : (whole.docs.map Doc.pid).Pairwise (· < ·))
    (partition : (shards.flatMap Shard.docs).Perm whole.docs) :
    mergeTopK (shards.map fun shard => BestK.best rankLe opt.k (scoredIds P C opt uniq shard.docs)) opt.k =
      .ok (BestK.best rankLe opt.k (scoredIds P C opt uniq whole.docs)) := by
  have all : (shards.map fun shard => scoredIds P C opt uniq shard.docs).flatten.Perm
      (scoredIds P C opt uniq whole.docs) := by
    have joined : (shards.map fun shard => scoredIds P C opt uniq shard.docs).flatten =
        scoredIds P C opt uniq (shards.flatMap Shard.docs) := by
      rw [← List.flatMap_def]
      simp only [scoredIds, List.filter_flatMap, List.map_flatMap]
    rw [joined]
    exact (partition.filter _).map _
  have distinct := @keys_scoredIds P C opt uniq _ ascending
  have bests : (shards.map fun shard => BestK.best rankLe opt.k (scoredIds P C opt uniq shard.docs)).flatten =
      (shards.map fun shard => scoredIds P C opt uniq shard.docs).flatMap (BestK.best rankLe opt.k) := by
    rw [List.flatMap_def, List.map_map]
    rfl
  have own : (Dict.keys (shards.map fun shard =>
      BestK.best rankLe opt.k (scoredIds P C opt uniq shard.docs)).flatten).Nodup := by
    rw [bests]
    obtain ⟨l, perm, sub⟩ := @BestK.subperm_flatMap_best _ rankLe opt.k
      (shards.map fun shard => scoredIds P C opt uniq shard.docs)
    have keys_nodup : (Dict.keys l).Nodup :=
      ((all.map Prod.fst).nodup_iff.mpr distinct).sublist (sub.map Prod.fst)
    exact (perm.map Prod.fst).nodup_iff.mp keys_nodup
  have nodup : (shards.map fun shard => scoredIds P C opt uniq shard.docs).flatten.Nodup :=
    List.Nodup.of_map Prod.fst ((all.map Prod.fst).nodup_iff.mpr distinct)
  rw [mergeTopK_disjoint own (Int.natCast_nonneg opt.k), Int.toNat_natCast, bests]
  have merged := @BestK.best_flatMap _ rankLe rankLe_linear opt.k [] _ nodup
  rw [List.nil_append, List.nil_append] at merged
  rw [merged, BestK.best_perm rankLe_linear opt.k all]

variable (sound : P.Sound) (hash : Bytes → Nat) (dir : String) (ready : whole.Ready)
  (shards_ready : ∀ shard ∈ shards, shard.Ready) (partition : (shards.flatMap Shard.docs).Perm whole.docs)
include sound ready shards_ready partition

/-- **Shards answer as the whole does.** Shards of a collection, in whatever way it is cut, that are
built with the statistics of the whole: all their indexes build and open, and for every query the
merge of their replies is the reply of the index of the whole collection. -/
theorem sharded_search : ∃ g ixs, whole.Opens P hash dir none g ∧
    List.Forall₂ (Shard.Opens P hash dir (some g)) shards ixs ∧
      ∀ query : SearchOptions, query.Valid → ∀ rawTerms : List Bytes, ∃ replies reply,
        List.Forall₂ (Replies P query rawTerms) ixs replies ∧ Replies P query rawTerms g reply ∧
          mergeTopK replies query.k = .ok reply := by
  obtain ⟨files, g, built, opened, serving⟩ :=
    build_serves hash whole.opt dir ready.codecs ready.fits sound (.own rfl)
  have few {docs : List Doc} {has : Codec → Bool} (fits : Indexable has docs) : docs.length ≤ kEnd := by
    have room := fits.room
    rw [kEnd, uint32Max]
    omega
  have each : ∀ shard ∈ shards, ∃ ix, shard.Opens P hash dir (some g) ix ∧
      ∀ query : SearchOptions, query.Valid → ∀ rawTerms : List Bytes, Replies P query rawTerms ix
        (BestK.best rankLe query.k (scoredIds P (Collection.of whole.docs) query (clauses rawTerms) shard.docs)) := by
    intro shard mem
    have own := shards_ready shard mem
    have stats : StatsFrom shard.docs whole.docs (some g) := by
      refine .global serving.n serving.sumDl fun s known => serving.df s ?_
      obtain ⟨doc, doc_mem, has⟩ := mem_vocabulary.mp known
      exact mem_vocabulary.mpr ⟨doc, partition.mem_iff.mp (List.mem_flatMap.mpr ⟨shard, mem, doc_mem⟩), has⟩
    obtain ⟨files, ix, built, opened, serving⟩ := build_serves hash shard.opt dir own.codecs own.fits sound stats
    exact ⟨ix, ⟨files, built, opened⟩, fun query valid rawTerms =>
      Serving.replies serving valid (few own.fits) own.ascending rawTerms⟩
  obtain ⟨ixs, all⟩ := exists_forall₂ each
  refine ⟨g, ixs, ⟨files, built, opened⟩, all.imp fun _ _ both => both.1, fun query valid rawTerms =>
    ⟨_, _, ?_, Serving.replies serving valid (few ready.fits) ready.ascending rawTerms,
      merge_scoredIds _ _ _ ready.ascending partition⟩⟩
  exact List.forall₂_map_right_iff.mpr (all.imp fun _ _ both => both.2 query valid rawTerms).flip

end Sharded

/-- The input of the builder for `threeDocs`, or for a partition of them by their ids. -/
def threeShard (modN modI : Nat) : Shard := ⟨⟨[.vbyte, .bp128], 2, modN, modI⟩, [threeDocs.take 2, threeDocs.drop 2]⟩

theorem sharded_search_three : ∃ g ixs replies reply,
    (threeShard 0 0).Opens .ofThree hashBytes "ix" none g ∧
      List.Forall₂ (Shard.Opens .ofThree hashBytes "ix" (some g)) [threeShard 2 1, threeShard 2 0] ixs ∧
        List.Forall₂ (Replies .ofThree threeQuery [[97], [99], [97]]) ixs replies ∧
          Replies .ofThree threeQuery [[97], [99], [97]] g reply ∧ mergeTopK replies 2 = .ok reply := by
  have ready : ∀ shard ∈ [threeShard 0 0, threeShard 2 1, threeShard 2 0], shard.Ready := by
    have fits : ∀ shard ∈ [threeShard 0 0, threeShard 2 1, threeShard 2 0],
        Indexable (fun c => decide (c ∈ shard.opt.codecs)) shard.docs := by
      simp only [List.forall_mem_cons, List.not_mem_nil, false_implies, implies_true, and_true]
      refine ⟨indexable_threeDocs _, ?_, ?_⟩
      · exact .of_sizes _ (by decide) (by decide) (by decide +kernel) (by decide +kernel) (by decide +kernel)
      · exact .of_sizes _ (by decide) (by decide) (by decide +kernel) (by decide +kernel) (by decide +kernel)
    have codecs : ∀ shard ∈ [threeShard 0 0, threeShard 2 1, threeShard 2 0], shard.opt.codecs ≠ [] := by decide
    have ascending : ∀ shard ∈ [threeShard 0 0, threeShard 2 1, threeShard 2 0],
        (shard.docs.map Doc.pid).Pairwise (· < ·) := by decide
    exact fun shard mem => ⟨codecs shard mem, fits shard mem, ascending shard mem⟩
  obtain ⟨whole, shards⟩ := List.forall_mem_cons.mp ready
  obtain ⟨g, ixs, opened, all, answers⟩ := sharded_search sound_ofThree hashBytes "ix" whole shards (by decide)
  obtain ⟨replies, reply, replied, whole_replied, merged⟩ := answers threeQuery valid_threeQuery [[97], [99], [97]]
  exact ⟨g, ixs, replies, reply, opened, all, replied, whole_replied, merged⟩

end HybridSearch.Broker
