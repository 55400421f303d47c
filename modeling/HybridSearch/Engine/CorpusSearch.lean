/-
# Engine.CorpusSearch -- what searching a built index means for the documents

A `Collection` is what BM25 knows of all documents: how many have terms, how long they are
together and how many have each term.  `Collection.score` is the score of a document
against the distinct terms of a query, and `ranked` are the best documents by it.

* `buildIndex_inverts`: build and open, and the index is the inverted corpus;
* `built_answers`: build, open and search, and the answer is `ranked`, for every hash
  function, cap, chunking, codec and algorithm;
* `build_serves`: the same for an index of some of the documents that was built with the
  statistics of an index of all of them.
-/
import HybridSearch.Engine.Inversion
import HybridSearch.Engine.LexicalSearch

namespace HybridSearch.Engine

open HybridSearch.Theory

set_option autoImplicit false

/-! ## BM25 over documents -/

/-- The statistics of all documents. -/
structure Collection where
  n : Nat
  sumDl : Nat
  df : Bytes → Nat

namespace Collection

def of (docs : List Doc) : Collection where
  n := docs.countP fun doc => decide (0 < doc.toks.length)
  sumDl := (docs.map fun doc => doc.toks.length).sum
  df s := docs.countP fun doc => doc.toks.contains s

variable (P : Platform) (C : Collection) (opt : SearchOptions)

def norms : Bm25Norms where
  model := opt.model
  k1 := opt.k1
  b := opt.b
  avgdl := P.avgdl C.n C.sumDl

def weight (u : Bytes × Nat) : ℚ := bm25Weight opt.model u.2 (P.bm25Idf (C.df u.1) C.n) opt.k1

/-- What one term of the query adds to the score of a document. -/
def contrib (doc : Doc) (u : Bytes × Nat) : ℚ :=
  if doc.toks.contains u.1 then
    bm25ScoreScaled (C.weight P opt u) (bm25ScaledTf (doc.toks.count u.1) ((C.norms P opt).invForLen doc.toks.length))
  else 0

def score (uniq : List (Bytes × Nat)) (doc : Doc) : ℚ := (uniq.map (C.contrib P opt doc)).sum

end Collection

/-- The document has a term of the query. -/
def Doc.Matches (uniq : List (Bytes × Nat)) (doc : Doc) : Prop := ∃ u ∈ uniq, u.1 ∈ doc.toks

instance (uniq : List (Bytes × Nat)) : DecidablePred (Doc.Matches uniq) := fun doc =>
  inferInstanceAs (Decidable (∃ u ∈ uniq, u.1 ∈ doc.toks))

/-- The documents that match, with their ordinals and their scores. -/
def scoredDocs (P : Platform) (C : Collection) (opt : SearchOptions) (uniq : List (Bytes × Nat)) (docs : List Doc) :
    List ScoredDoc :=
  (docs.zipIdx.filter fun x => decide (x.1.Matches uniq)).map fun x => ⟨x.2, C.score P opt uniq x.1⟩

/-- The best of the first `F` documents. -/
def ranked (P : Platform) (C : Collection) (opt : SearchOptions) (rawTerms : List Bytes) (docs : List Doc) (F : Nat) :
    List ScoredDoc :=
  BestK.best ranksLe opt.k (scoredDocs P C opt (clauses rawTerms) (docs.take F))

/-! ## The merged terms of the documents -/

section Inverted

variable {docs : List Doc}

theorem mem_holders {s : Bytes} {x : Doc × Nat} : x ∈ holders docs s ↔ docs[x.2]? = some x.1 ∧ s ∈ x.1.toks := by
  rw [holders, List.mem_filter, List.contains_iff_mem, List.mem_zipIdx_iff_getElem?]

theorem mem_invertedTerm {s : Bytes} {d : Nat} :
    d ∈ (invertedTerm docs s).docs ↔ ∃ doc, docs[d]? = some doc ∧ s ∈ doc.toks := by
  show d ∈ (holders docs s).map Prod.snd ↔ _
  rw [List.mem_map]
  constructor
  · rintro ⟨x, mem, rfl⟩
    exact ⟨x.1, mem_holders.mp mem⟩
  · rintro ⟨doc, at_d, has⟩
    exact ⟨(doc, d), mem_holders.mpr ⟨at_d, has⟩, rfl⟩

/-- The frequency stored for a document is its count. -/
theorem tf_invertedTerm {s : Bytes} {d : Nat} {doc : Doc} (at_d : docs[d]? = some doc) (has : s ∈ doc.toks) :
    (invertedTerm docs s).tfs.getD ((invertedTerm docs s).docs.idxOf d) 0 = doc.toks.count s := by
  have inside : (invertedTerm docs s).docs.idxOf d < (invertedTerm docs s).docs.length :=
    List.idxOf_lt_length_iff.mpr (mem_invertedTerm.mpr ⟨doc, at_d, has⟩)
  have place : (invertedTerm docs s).docs[(invertedTerm docs s).docs.idxOf d] = d := List.getElem_idxOf inside
  generalize (invertedTerm docs s).docs.idxOf d = i at inside place
  have inside : i < (holders docs s).length := by
    rw [invertedTerm, List.length_map] at inside
    exact inside
  have own : (holders docs s)[i].2 = d := by
    simp only [invertedTerm, List.getElem_map] at place
    exact place
  have found := (mem_holders.mp (List.getElem_mem inside)).1
  rw [own, at_d] at found
  simp only [invertedTerm]
  rw [List.getD_eq_getElem _ _ (by rw [List.length_map]; exact inside), List.getElem_map, ← Option.some.inj found]

theorem length_invertedTerm (s : Bytes) :
    (invertedTerm docs s).docs.length = docs.countP fun doc => doc.toks.contains s := by
  show ((holders docs s).map Prod.snd).length = _
  have fst : docs.zipIdx.map Prod.fst = docs := List.zipIdx_map_fst 0 docs
  rw [List.length_map, holders, ← List.countP_eq_length_filter]
  conv_rhs => rw [← fst, List.countP_map]
  rfl

theorem names_inverted (docs : List Doc) : (inverted docs).map Merged.str = vocabulary docs := by
  rw [inverted, List.map_map]
  exact List.map_id _

theorem find_inverted (s : Bytes) :
    ((inverted docs).find? fun t => decide (t.str = s)) =
      if s ∈ vocabulary docs then some (invertedTerm docs s) else none := by
  have search : ((vocabulary docs).find? fun r => decide (r = s)) = if s ∈ vocabulary docs then some s else none := by
    split_ifs with mem
    · cases found : (vocabulary docs).find? fun r => decide (r = s) with
      | none => exact absurd (decide_eq_true rfl) (List.find?_eq_none.mp found s mem)
      | some r =>
          have same := List.find?_some found
          rw [of_decide_eq_true same]
    · exact List.find?_eq_none.mpr fun r present same => mem ((of_decide_eq_true same : r = s) ▸ present)
  have keys : ((fun t : Merged => decide (t.str = s)) ∘ invertedTerm docs) = fun r => decide (r = s) := rfl
  rw [inverted, List.find?_map, keys, search]
  split_ifs
  · rfl
  · rfl

/-- The terms that a query asks an index of the documents for. -/
theorem asked_inverted (uniq : List (Bytes × Nat)) :
    asked (inverted docs) uniq =
      (uniq.filter fun u => decide (u.1 ∈ vocabulary docs)).map fun u => (invertedTerm docs u.1, u.2) := by
  induction uniq with
  | nil => rfl
  | cons u rest ih =>
      rw [asked, List.filterMap_cons, find_inverted, List.filter_cons]
      by_cases mem : u.1 ∈ vocabulary docs
      · rw [if_pos mem, if_pos (decide_eq_true mem)]
        exact congrArg _ ih
      · rw [if_neg mem, if_neg (by simpa using mem)]
        exact ih

theorem namesDoc_inverted {uniq : List (Bytes × Nat)} {d : Nat} :
    NamesDoc (asked (inverted docs) uniq) d ↔ ∃ doc, docs[d]? = some doc ∧ doc.Matches uniq := by
  rw [asked_inverted]
  constructor
  · rintro ⟨a, mem, holds⟩
    obtain ⟨u, wanted, rfl⟩ := List.mem_map.mp mem
    obtain ⟨doc, at_d, has⟩ := mem_invertedTerm.mp holds
    exact ⟨doc, at_d, u, List.mem_of_mem_filter wanted, has⟩
  · rintro ⟨doc, at_d, u, mem, has⟩
    have known : u.1 ∈ vocabulary docs := mem_vocabulary.mpr ⟨doc, List.mem_of_getElem? at_d, has⟩
    exact ⟨_, List.mem_map_of_mem (List.mem_filter.mpr ⟨mem, decide_eq_true known⟩),
      mem_invertedTerm.mpr ⟨doc, at_d, has⟩⟩

variable {P : Platform} {C : Collection} {opt : SearchOptions} {sc : Scorer} {weight : Merged × Nat → ℚ}

/-- **The score by postings is the score by documents.** -/
theorem bm25_inverted {uniq : List (Bytes × Nat)} {d : Nat} {doc : Doc} (at_d : docs[d]? = some doc)
    (contribs : ∀ w tf, sc.contrib w d tf =
      bm25ScoreScaled w (bm25ScaledTf tf ((C.norms P opt).invForLen doc.toks.length)))
    (weights : ∀ u ∈ uniq, u.1 ∈ vocabulary docs → weight (invertedTerm docs u.1, u.2) = C.weight P opt u) :
    bm25 sc weight (asked (inverted docs) uniq) d = C.score P opt uniq doc := by
  rw [bm25, asked_inverted, Collection.score]
  induction uniq with
  | nil => rfl
  | cons u rest ih =>
      obtain ⟨own, weights⟩ := List.forall_mem_cons.mp weights
      rw [List.map_cons, List.sum_cons, List.filter_cons]
      by_cases known : u.1 ∈ vocabulary docs
      · rw [if_pos (decide_eq_true known), List.map_cons, List.map_cons, List.sum_cons, ih weights]
        congr 1
        dsimp only
        rw [Collection.contrib]
        by_cases has : u.1 ∈ doc.toks
        · rw [if_pos (mem_invertedTerm.mpr ⟨doc, at_d, has⟩), if_pos (List.contains_iff_mem.mpr has), contribs, own known, tf_invertedTerm at_d has]
        · have absent : d ∉ (invertedTerm docs u.1).docs := by
            intro mem
            obtain ⟨other, at_other, mem⟩ := mem_invertedTerm.mp mem
            rw [at_d] at at_other
            exact has (Option.some.inj at_other ▸ mem)
          rw [if_neg absent, if_neg (mt List.contains_iff_mem.mp has)]
      · have absent : u.1 ∉ doc.toks := fun has =>
          known (mem_vocabulary.mpr ⟨doc, List.mem_of_getElem? at_d, has⟩)
        rw [if_neg (by simpa using known), ih weights, Collection.contrib,
          if_neg (mt List.contains_iff_mem.mp absent), zero_add]

/-- The hits by postings are the hits by documents. -/
theorem below_inverted {uniq : List (Bytes × Nat)}
    (contribs : ∀ d doc, docs[d]? = some doc → ∀ w tf, sc.contrib w d tf =
      bm25ScoreScaled w (bm25ScaledTf tf ((C.norms P opt).invForLen doc.toks.length)))
    (weights : ∀ u ∈ uniq, u.1 ∈ vocabulary docs → weight (invertedTerm docs u.1, u.2) = C.weight P opt u) (F : Nat) :
    below (NamesDoc (asked (inverted docs) uniq)) (bm25 sc weight (asked (inverted docs) uniq)) F =
      scoredDocs P C opt uniq (docs.take F) := by
  induction F with
  | zero => rw [below_zero, List.take_zero]; rfl
  | succ F ih =>
      cases at_F : docs[F]? with
      | none =>
          have miss : ¬NamesDoc (asked (inverted docs) uniq) F := by
            rw [namesDoc_inverted]
            rintro ⟨doc, at_F', -⟩
            rw [at_F] at at_F'
            cases at_F'
          have past := List.getElem?_eq_none_iff.mp at_F
          rw [below_succ_of_not miss, ih, List.take_of_length_le past, List.take_of_length_le (Nat.le_succ_of_le past)]
      | some doc =>
          have inside := (List.getElem?_eq_some_iff.mp at_F).1
          have grown : scoredDocs P C opt uniq (docs.take (F + 1)) = scoredDocs P C opt uniq (docs.take F) ++
              if doc.Matches uniq then [⟨F, C.score P opt uniq doc⟩] else [] := by
            rw [List.take_add_one, at_F, Option.toList_some, scoredDocs, List.zipIdx_append, List.filter_append,
              List.map_append, scoredDocs, List.length_take_of_le inside.le, Nat.zero_add]
            congr 1
            by_cases docMatches : doc.Matches uniq
            · simp only [List.zipIdx_cons, List.zipIdx_nil, List.filter_cons, docMatches, decide_true, if_true,
                List.filter_nil, List.map_cons, List.map_nil]
            · simp only [List.zipIdx_cons, List.zipIdx_nil, List.filter_cons, docMatches, decide_false,
                Bool.false_eq_true, if_false, List.filter_nil, List.map_nil]
          rw [grown, ← ih]
          by_cases docMatches : doc.Matches uniq
          · have hit : NamesDoc (asked (inverted docs) uniq) F := namesDoc_inverted.mpr ⟨doc, at_F, docMatches⟩
            rw [below_succ_of_matched hit, if_pos docMatches, bm25_inverted at_F (contribs F doc at_F) weights]
          · have miss : ¬NamesDoc (asked (inverted docs) uniq) F := by
              rw [namesDoc_inverted]
              rintro ⟨other, at_F', hit⟩
              rw [at_F] at at_F'
              exact docMatches (Option.some.inj at_F' ▸ hit)
            rw [below_succ_of_not miss, if_neg docMatches, List.append_nil]

end Inverted

/-! ## Sizes -/

/-- The sizes that the index format has room for. -/
structure Indexable (has : Codec → Bool) (docs : List Doc) : Prop where
  small : ∀ doc ∈ docs, doc.Small
  room : docs.length + 127 < 2 ^ 32
  fewTerms : (vocabulary docs).length < 2 ^ 32
  encoded : ∀ s ∈ vocabulary docs, ∀ c, has c → ((invertedTerm docs s).encoded c).length < 2 ^ 32
  blocks : ((inverted docs).map Merged.storedBlocks).sum < 2 ^ 32

/-- How many tokens each document has. -/
abbrev docLengths (docs : List Doc) : List Nat := docs.map fun doc => doc.toks.length

section Sizes

variable {has : Codec → Bool} {docs : List Doc}

theorem storable_inverted (fits : Indexable has docs) {s : Bytes} (mem : s ∈ vocabulary docs) :
    (invertedTerm docs s).Storable has where
  str := by
    obtain ⟨doc, doc_mem, occurs⟩ := mem_vocabulary.mp mem
    exact (fits.small doc doc_mem).tokens s occurs
  nonempty := mt List.map_eq_nil_iff.mp (holders_ne_nil mem)
  increasing := increasing_holders docs s
  docsFit d doc := by
    obtain ⟨_, at_d, -⟩ := mem_invertedTerm.mp doc
    have inside := (List.getElem?_eq_some_iff.mp at_d).1
    have room := fits.room
    omega
  lengths := (List.length_map _).trans (List.length_map _).symm
  tfsFit x mem := by
    obtain ⟨y, holds, rfl⟩ := List.mem_map.mp mem
    exact List.count_le_length.trans_lt (fits.small y.1 (List.mem_of_getElem? (mem_holders.mp holds).1)).few
  encoded := fits.encoded s mem

/-- **What a build merges fits together.** -/
theorem corpus_inverted (fits : Indexable has docs) :
    Corpus has (docs.map Doc.pid) (docLengths docs) (inverted docs) where
  docs := (List.length_map _).trans (List.length_map _).symm
  lengths d mem := by
    obtain ⟨doc, doc_mem, rfl⟩ := List.mem_map.mp mem
    exact (fits.small doc doc_mem).few
  few := by
    have room := fits.room
    rw [List.length_map, kEnd, uint32Max]
    omega
  fewTerms := by
    rw [inverted, List.length_map]
    exact fits.fewTerms
  storable t mem := by
    obtain ⟨s, known, rfl⟩ := List.mem_map.mp mem
    exact storable_inverted fits known
  counted := ⟨fun t mem => by
    obtain ⟨s, known, rfl⟩ := List.mem_map.mp mem
    rw [length_invertedTerm]
    exact (Nat.add_le_add_right List.countP_le_length 127).trans_lt fits.room, fits.blocks⟩
  ordered := by
    rw [names_inverted]
    exact ordered_vocabulary docs
  sized t mem d doc := by
    obtain ⟨s, known, rfl⟩ := List.mem_map.mp mem
    obtain ⟨doc, at_d, occurs⟩ := mem_invertedTerm.mp doc
    rw [List.getD_eq_getElem?_getD, List.getElem?_map, at_d]
    exact List.length_pos_of_mem occurs

end Sizes

/-! ## Statistics -/

/-- What the formulas of the platform have to do with frequencies and lengths. -/
structure Platform.Sound (P : Platform) : Prop where
  idf : ∀ df n, df ≤ n → 0 ≤ P.bm25Idf df n
  avgdl : ∀ sumDl n, 0 < sumDl → 0 < n → 0 < P.bm25Avgdl sumDl n

structure SearchOptions.Valid (opt : SearchOptions) : Prop where
  k1 : 0 < opt.k1
  bNonneg : 0 ≤ opt.b
  bLe : opt.b ≤ 1

/-- Where an index of `docs` has its statistics of `all` from. -/
inductive StatsFrom (docs all : List Doc) : Option LexicalIndex → Prop
  | own (same : docs = all) : StatsFrom docs all none
  | global {g : LexicalIndex} (n : g.idfN = (Collection.of all).n) (sumDl : g.idfSumDl = (Collection.of all).sumDl)
      (df : ∀ s ∈ vocabulary docs, ∃ id, g.termId s = .ok (some id) ∧ g.idfDf id = .ok ((Collection.of all).df s)) :
      StatsFrom docs all (some g)

/-- `global_df.u32`, when there is one. -/
def globalDfOf (global : Option LexicalIndex) (docs all : List Doc) : Option (List Nat) :=
  global.map fun _ => (vocabulary docs).map (Collection.of all).df

theorem Collection.df_le (docs : List Doc) (s : Bytes) : (Collection.of docs).df s ≤ (Collection.of docs).n := by
  refine List.countP_mono_left fun doc _ has => ?_
  rw [decide_eq_true_eq]
  exact List.length_pos_of_mem (List.contains_iff_mem.mp has)

theorem Collection.sumDl_pos {docs : List Doc} (nonempty : 0 < (Collection.of docs).n) :
    0 < (Collection.of docs).sumDl := by
  obtain ⟨doc, mem, pos⟩ := List.countP_pos_iff.mp nonempty
  exact (of_decide_eq_true pos).trans_le
    (List.single_le_sum (fun _ _ => Nat.zero_le _) _ (List.mem_map_of_mem mem))

theorem Collection.norms_inRange {P : Platform} (sound : P.Sound) (docs : List Doc) {opt : SearchOptions}
    (valid : opt.Valid) : ((Collection.of docs).norms P opt).InRange where
  k1 := valid.k1
  bNonneg := valid.bNonneg
  bLe := valid.bLe
  avgdl := by
    show 0 < P.avgdl (Collection.of docs).n (Collection.of docs).sumDl
    rw [Platform.avgdl]
    split_ifs with noDocs
    · exact one_pos
    · have n_pos := Nat.pos_of_ne_zero noDocs
      exact sound.avgdl _ _ (Collection.sumDl_pos n_pos) n_pos

theorem weight_nonneg {P : Platform} (sound : P.Sound) (docs : List Doc) {opt : SearchOptions} (valid : opt.Valid)
    (u : Bytes × Nat) : 0 ≤ (Collection.of docs).weight P opt u := by
  have idf := sound.idf _ _ (Collection.df_le docs u.1)
  have k1 := valid.k1
  rw [Collection.weight, bm25Weight]
  split_ifs
  · positivity
  · positivity

theorem sum_docLengths {has : Codec → Bool} {docs : List Doc} (fits : Indexable has docs) :
    u64 (docLengths docs).sum = (docLengths docs).sum := by
  have bound : (docLengths docs).sum ≤ (docLengths docs).length • 2 ^ 32 := by
    refine List.sum_le_card_nsmul _ _ fun n mem => ?_
    obtain ⟨doc, doc_mem, rfl⟩ := List.mem_map.mp mem
    exact (fits.small doc doc_mem).few.le
  have room := fits.room
  rw [List.length_map, Nat.nsmul_eq_mul] at bound
  exact Nat.mod_eq_of_lt (by omega)

section Built

variable {P : Platform} {has : Codec → Bool} {docs all : List Doc} {global : Option LexicalIndex}

theorem scoreStats_eq (fits : Indexable has docs) (stats : StatsFrom docs all global) :
    scoreStats global (docLengths docs) = ((Collection.of all).n, (Collection.of all).sumDl) := by
  cases stats with
  | own same =>
      subst same
      rw [scoreStats, sum_docLengths fits, List.countP_map]
      rfl
  | global n sumDl df => rw [scoreStats, n, sumDl]

/-- The index of the documents, as it is opened. -/
abbrev builtIndex (P : Platform) (has : Codec → Bool) (global : Option LexicalIndex) (docs all : List Doc) : LexicalIndex :=
  reopened P has global (docs.map Doc.pid) (docLengths docs) (inverted docs) (globalDfOf global docs all)

theorem framed_inverted (fits : Indexable has docs) :
    Framed global (docs.map Doc.pid) (buildStats P global (docLengths docs)) (inverted docs)
      (globalDfOf global docs all) := by
  refine (corpus_inverted fits).framed ?_
  cases global with
  | none => exact .inl ⟨rfl, rfl⟩
  | some g => exact .inr ⟨g, _, rfl, rfl, by rw [inverted, List.length_map, List.length_map]⟩

theorem builtIndex_recovered (fits : Indexable has docs) :
    Recovered P has (buildStats P global (docLengths docs)) (inverted docs) (builtIndex P has global docs all) :=
  recovered_restored (framed_inverted fits) (corpus_inverted fits).storable (corpus_inverted fits).counted

theorem writeIndex_inverted (stats : StatsFrom docs all global) :
    writeIndex P has global (docs.map Doc.pid) (docLengths docs) (inverted docs) =
      .ok (indexFiles has global (docs.map Doc.pid) (buildStats P global (docLengths docs)) (inverted docs)
        (globalDfOf global docs all)) := by
  cases stats with
  | own same => rfl
  | @global g n sumDl df =>
      have found : globalDfs g ((inverted docs).map Merged.str) = .ok ((vocabulary docs).map (Collection.of all).df) := by
        rw [names_inverted]
        refine mapM_eq_map fun s mem => ?_
        obtain ⟨id, own, freq⟩ := df s mem
        rw [own, ok_bind]
        exact freq
      rw [writeIndex, found, ok_bind]
      rfl

theorem builtIndex_idfDf (fits : Indexable has docs) (stats : StatsFrom docs all global) {i : Nat} {t : Merged}
    (at_i : (inverted docs)[i]? = some t) :
    (builtIndex P has global docs all).idfDf i = .ok ((Collection.of all).df t.str) := by
  have corpus := corpus_inverted fits
  have recovered := @builtIndex_recovered P has docs all global fits
  obtain ⟨info, found, term⟩ := recovered.term i t at_i
  rw [inverted, List.getElem?_map, Option.map_eq_some_iff] at at_i
  obtain ⟨s, at_i, rfl⟩ := at_i
  cases stats with
  | own same =>
      subst same
      have noGlobal : (builtIndex P has none docs docs).globalDf = [] := rfl
      rw [LexicalIndex.idfDf, if_pos noGlobal, at?_eq_ok found, ok_bind, term.df, length_invertedTerm]
      rfl
  | @global g n sumDl df =>
      have listed : (builtIndex P has (some g) docs all).globalDf = (vocabulary docs).map (Collection.of all).df := rfl
      have nonempty : (vocabulary docs).map (Collection.of all).df ≠ [] :=
        List.ne_nil_of_mem (List.mem_map_of_mem (List.mem_of_getElem? at_i))
      rw [LexicalIndex.idfDf, listed, if_neg nonempty]
      exact at?_eq_ok (by rw [List.getElem?_map, at_i]; rfl)

theorem builtIndex_scorer (fits : Indexable has docs) (stats : StatsFrom docs all global) (opt : SearchOptions) :
    ((builtIndex P has global docs all).scorer opt).bn = (Collection.of all).norms P opt := by
  have same := scoreStats_eq fits stats
  show Bm25Norms.mk opt.model opt.k1 opt.b (P.avgdl (scoreStats global (docLengths docs)).1
    (scoreStats global (docLengths docs)).2) = _
  rw [same]
  rfl

theorem builtIndex_range (sound : P.Sound) (fits : Indexable has docs) (stats : StatsFrom docs all global)
    {opt : SearchOptions} (valid : opt.Valid) : ((builtIndex P has global docs all).scorer opt).bn.InRange := by
  rw [builtIndex_scorer fits stats opt]
  exact Collection.norms_inRange sound all valid

theorem builtIndex_weight (fits : Indexable has docs) (stats : StatsFrom docs all global) (opt : SearchOptions)
    (u : Bytes × Nat) : askedWeight P opt (fun t => (Collection.of all).df t.str)
      (builtIndex P has global docs all).idfN (invertedTerm docs u.1, u.2) = (Collection.of all).weight P opt u := by
  have n : (builtIndex P has global docs all).idfN = (Collection.of all).n :=
    congrArg Prod.fst (scoreStats_eq fits stats)
  rw [askedWeight, n]
  rfl

theorem builtIndex_weights (sound : P.Sound) (fits : Indexable has docs) (stats : StatsFrom docs all global)
    {opt : SearchOptions} (valid : opt.Valid) (rawTerms : List Bytes) :
    ∀ a ∈ asked (inverted docs) (clauses rawTerms), 0 ≤ askedWeight P opt (fun t => (Collection.of all).df t.str)
      (builtIndex P has global docs all).idfN a := by
  rw [asked_inverted]
  intro a mem
  obtain ⟨u, -, rfl⟩ := List.mem_map.mp mem
  rw [builtIndex_weight fits stats]
  exact weight_nonneg sound all valid u

/-- The bound is above every contribution of the postings, and under the parameters of the build it is
one of them. -/
structure Scorer.Bounds (sc : Scorer) (w : ℚ) (ps : List (Nat × Nat)) (b : BoundInfo) : Prop where
  above : ∀ p ∈ ps, sc.contrib w p.1 p.2 ≤ sc.bound w b
  attained : sc.exactBounds = true → ∃ p ∈ ps, sc.bound w b = sc.contrib w p.1 p.2

theorem slice_ne_nil {α : Type} {xs : List α} {j : Nat} (inside : j < blockCount xs.length) : slice xs j ≠ [] := by
  rw [← List.length_pos_iff, slice, List.length_take, List.length_drop]
  simp only [blockCount, kBlockSize] at inside ⊢
  omega

/-- **The stored bounds are bounds**, of every term and of every block, for a query with any parameters. -/
theorem builtIndex_bounds (sound : P.Sound) (fits : Indexable has docs) (stats : StatsFrom docs all global)
    {opt : SearchOptions} (valid : opt.Valid) {w : ℚ} (weight : 0 ≤ w) {i : Nat} {t : Merged}
    (at_i : (inverted docs)[i]? = some t) :
    ∃ info, (builtIndex P has global docs all).terms[i]? = some info ∧
      ((builtIndex P has global docs all).scorer opt).Bounds w t.postings info.bound ∧
      (1 < t.blocks → ∀ j < t.blocks, ∃ block, (builtIndex P has global docs all).blocks[info.firstBlock + j]? =
        some block ∧ ((builtIndex P has global docs all).scorer opt).Bounds w (slice t.postings j) block.bound) := by
  have corpus := corpus_inverted fits
  have recovered := @builtIndex_recovered P has docs all global fits
  obtain ⟨info, found, term⟩ := recovered.term i t at_i
  have mem := List.mem_of_getElem? at_i
  have range := builtIndex_range sound fits stats valid
  have reads := scorer_reads range
  have nonneg := postings_nonneg corpus range mem
  have pos : ∀ p ∈ t.postings, 0 < (buildStats P global (docLengths docs)).dls.getD p.1 0 := fun p p_mem =>
    corpus.sized t mem p.1 (List.of_mem_zip p_mem).1
  have count : t.postings.length = t.docs.length := by
    rw [Merged.postings, List.length_zip, (corpus.storable t mem).lengths, Nat.min_self]
  have bounds {ps : List (Nat × Nat)} {acc : Bounded} (covers : acc.Covers (buildStats P global (docLengths docs)) ps)
      (part : ∀ p ∈ ps, p ∈ t.postings) (nonempty : ps ≠ []) :
      ((builtIndex P has global docs all).scorer opt).Bounds w ps acc.bi :=
    ⟨fun p p_mem => covers.bound_sound reads (fun p p_mem => pos p (part p p_mem)) weight p_mem,
      fun tight => covers.bound_attained reads tight nonempty w⟩
  refine ⟨info, found, ?_, fun several j inside => ?_⟩
  · rw [term.bound]
    refine bounds (DocStats.termBound_covers nonneg) (fun _ mem => mem) ?_
    rw [← List.length_pos_iff, count]
    exact List.length_pos_iff.mpr (corpus.storable t mem).nonempty
  · obtain ⟨block, at_block, -, -, bound⟩ := term.block several j inside
    refine ⟨block, at_block, ?_⟩
    rw [bound]
    refine bounds (DocStats.blockBound_covers nonneg j) (fun p p_mem => Codec.mem_of_mem_slice p_mem)
      (slice_ne_nil ?_)
    rw [count]
    exact inside

/-- Clauses of one query with the same postings are the same. -/
theorem clauses_unique {ix : LexicalIndex} {codec codec' : Codec} {sc sc' : Scorer} {weight : Merged × Nat → ℚ}
    {as : List (Merged × Nat)} {qs : List QTerm} {cs cs' : List Clause}
    (of : List.Forall₂ (ClauseOf P ix codec sc) qs cs) (of' : List.Forall₂ (ClauseOf P ix codec' sc') qs cs')
    (same : List.Forall₂ (fun a c => c.term.weight = weight a ∧ c.docs = a.1.docs ∧ c.tfs = a.1.tfs) as cs)
    (same' : List.Forall₂ (fun a c => c.term.weight = weight a ∧ c.docs = a.1.docs ∧ c.tfs = a.1.tfs) as cs') :
    cs = cs' := by
  induction of generalizing as cs' with
  | nil =>
      cases of'
      rfl
  | cons here _ ih =>
      cases of' with
      | cons here' of' =>
      cases same with
      | cons lists same =>
      cases same' with
      | cons lists' same' =>
      have info := here.found.symm.trans here'.found
      rw [ih of' same same']
      congr 1
      exact Clause.ext (here.term.trans here'.term.symm) (Option.some.inj info) (lists.2.1.trans lists'.2.1.symm)
        (lists.2.2.trans lists'.2.2.symm)

/-- The index has the same posting lists for a query on each of its codecs. -/
theorem builtIndex_serves (sound : P.Sound) (fits : Indexable has docs) (stats : StatsFrom docs all global)
    (some_codec : ∃ codec, has codec = true) {opt : SearchOptions} (valid : opt.Valid) (rawTerms : List Bytes) :
    ∃ q cs, (builtIndex P has global docs all).query P opt rawTerms = .ok q ∧
      ∀ codec, has codec = true → Serves P (builtIndex P has global docs all) codec q cs := by
  have corpus := corpus_inverted fits
  have framed := @framed_inverted P has docs all global fits
  obtain ⟨q, query, sc_eq, related⟩ := @query_spec P _ opt _ _ corpus.ordered (named_reopened corpus framed)
    (fun i t at_i => builtIndex_idfDf fits stats at_i) rawTerms
  have weights := builtIndex_weights sound fits stats valid rawTerms
  have range := builtIndex_range sound fits stats valid
  obtain ⟨codec₀, present₀⟩ := some_codec
  obtain ⟨cs, of₀, same₀, -, -⟩ := asked_clauses corpus framed range present₀ related weights
  refine ⟨q, cs, query, fun codec present => ?_⟩
  obtain ⟨cs', of, same, sequential, inside⟩ := asked_clauses corpus framed range present related weights
  obtain rfl := clauses_unique of₀ of same₀ same
  exact ⟨sc_eq ▸ of, sequential, inside⟩

/-- **Searching the index of the documents** ranks the documents. -/
theorem builtIndex_search (sound : P.Sound) (fits : Indexable has docs) (stats : StatsFrom docs all global)
    (some_codec : ∃ codec, has codec = true) {opt : SearchOptions} (valid : opt.Valid) (rawTerms : List Bytes)
    {s : Scratch} (clean : s.Clean) (dl : Deadline) :
    ∃ result, (builtIndex P has global docs all).search P rawTerms opt dl s = .ok result ∧
      Answers (ranked P (Collection.of all) opt rawTerms docs) opt dl result := by
  have bn := builtIndex_scorer (P := P) fits stats opt
  have range := builtIndex_range sound fits stats valid
  have contribs : ∀ d doc, docs[d]? = some doc → ∀ w tf, ((builtIndex P has global docs all).scorer opt).contrib w d tf =
      bm25ScoreScaled w (bm25ScaledTf tf (((Collection.of all).norms P opt).invForLen doc.toks.length)) := by
    intro d doc at_d w tf
    have length : (buildStats P global (docLengths docs)).dls.getD d 0 = doc.toks.length := by
      show (docLengths docs).getD d 0 = _
      rw [List.getD_eq_getElem?_getD, List.getElem?_map, at_d]
      rfl
    rw [(scorer_reads range).contrib_eq, bn, length]
  obtain ⟨result, ran, answers⟩ := reopened_search_ends (corpus_inverted fits) (framed_inverted fits) range
    (fun i t at_i => builtIndex_idfDf fits stats at_i) (builtIndex_weights sound fits stats valid rawTerms)
    some_codec clean dl
  refine ⟨result, ran, ?_⟩
  have same : bm25Best ((builtIndex P has global docs all).scorer opt) (askedWeight P opt
      (fun t => (Collection.of all).df t.str) (builtIndex P has global docs all).idfN)
      (asked (inverted docs) (clauses rawTerms)) opt.k = ranked P (Collection.of all) opt rawTerms docs := by
    funext F
    rw [bm25Best, ranked, below_inverted contribs fun u _ _ => builtIndex_weight fits stats opt u]
  rw [same] at answers
  exact answers

end Built

/-! ## The stored postings -/

theorem resize_self (xs : List Nat) : LexicalIndex.resize xs xs.length = xs := by
  rw [LexicalIndex.resize, List.take_length, Nat.sub_self, List.replicate_zero, List.append_nil]

section Postings

variable {P : Platform} {has : Codec → Bool} {docs all : List Doc} {global : Option LexicalIndex}

/-- **The posting list of a term** decodes to its documents and counts, on each codec. -/
theorem builtIndex_postings (fits : Indexable has docs) {i : Nat} {t : Merged} (at_i : (inverted docs)[i]? = some t) :
    ∃ info, (builtIndex P has global docs all).terms[i]? = some info ∧ info.df = t.docs.length ∧
      info.cf = t.tfs.sum ∧ ∀ c, has c = true →
        (builtIndex P has global docs all).postings P i c = .ok (t.docs, t.tfs) := by
  have corpus := corpus_inverted fits
  have recovered := @builtIndex_recovered P has docs all global fits
  obtain ⟨info, found, term⟩ := recovered.term i t at_i
  have mem := List.mem_of_getElem? at_i
  have storable := corpus.storable t mem
  have counted := corpus.counted.term t mem
  refine ⟨info, found, term.df, term.cf, fun c present => ?_⟩
  have mapped : (builtIndex P has global docs all).postingsOf c =
      some ((inverted docs).flatMap fun t => t.encoded c) := by
    simp only [builtIndex, reopened, restored, present, if_true]
  have split := flatMap_split at_i fun t => t.encoded c
  have reads := Codec.reads_blocks P.haveNeon c storable.lengths storable.docsFit storable.tfsFit
  have read : (decodeBlocks P.haveNeon c (blockCount32 info.df) info.df uint32Max).run
      (((inverted docs).flatMap fun t => t.encoded c).drop (info.postOff c)) =
        .ok ((t.docs, t.tfs), ((inverted docs).drop (i + 1)).flatMap fun t => t.encoded c) := by
    rw [term.postOff c present, split, List.drop_left' rfl, term.df, blockCount32_eq counted]
    exact reads _
  rw [LexicalIndex.postings, at?_eq_ok found, ok_bind, mapped]
  dsimp only
  rw [read, ok_bind]
  dsimp only
  rw [term.df, resize_self, storable.lengths, resize_self]
  rfl

/-- **Terms are found** exactly when some document has them. -/
theorem builtIndex_termId (fits : Indexable has docs) (s : Bytes) :
    ∃ found, (builtIndex P has global docs all).termId s = .ok found ∧
      ∀ i, found = some i ↔ (vocabulary docs)[i]? = some s := by
  have corpus := corpus_inverted fits
  have found := @termId_spec _ _ corpus.ordered s
    (named_reopened corpus (@framed_inverted P has docs all global fits))
  rw [names_inverted] at found
  exact found

end Postings

/-! ## Building -/

/-- What a user of an index of `docs` relies on, when its statistics are those of `all`. -/
structure Serving (P : Platform) (docs all : List Doc) (ix : LexicalIndex) : Prop where
  docids : ix.docids = docs.map Doc.pid
  n : ix.idfN = (Collection.of all).n
  sumDl : ix.idfSumDl = (Collection.of all).sumDl
  df : ∀ s ∈ vocabulary docs, ∃ id, ix.termId s = .ok (some id) ∧ ix.idfDf id = .ok ((Collection.of all).df s)
  answers : ∀ opt : SearchOptions, opt.Valid → ∀ (rawTerms : List Bytes) (dl : Deadline) (s : Scratch), s.Clean →
    ∃ result, ix.search P rawTerms opt dl s = .ok result ∧
      Answers (ranked P (Collection.of all) opt rawTerms docs) opt dl result

section Build

variable {P : Platform} (hash : Bytes → Nat) (opt : BuildOptions) (dir : String) {chunks : List (List Doc)}
  (some_codec : opt.codecs ≠ []) (fits : Indexable (fun c => decide (c ∈ opt.codecs)) (kept opt chunks.flatten))
include some_codec fits

theorem build_opens {global : Option LexicalIndex} {all : List Doc}
    (stats : StatsFrom (kept opt chunks.flatten) all global) :
    ∃ files, buildIndex P hash opt global chunks = .ok files ∧
      openIndex P dir files = .ok
        (builtIndex P (fun c => decide (c ∈ opt.codecs)) global (kept opt chunks.flatten) all) := by
  have room := fits.room
  obtain ⟨b, merged, pids, dls⟩ := mergeRuns_inverts hash opt fits.small (by omega) fits.fewTerms
  have corpus := corpus_inverted fits
  have framed := @framed_inverted P _ _ all global fits
  have written := @writeIndex_inverted P (fun c => decide (c ∈ opt.codecs)) _ _ _ stats
  refine ⟨_, ?_, openIndex_ok P dir corpus.storable framed corpus.counted⟩
  rw [buildIndex, if_neg some_codec, merged, ok_bind]
  dsimp only
  rw [pids, dls]
  exact written

/-- **The opened index is the inverted corpus.** Whatever the hash function, the posting cap, the chunks and
the statistics, it has exactly the terms of this partition's documents, in bytewise order, and on each codec
the posting list of a term is the documents that have it, in order, with its count in each. -/
theorem buildIndex_inverts {global : Option LexicalIndex} {all : List Doc}
    (stats : StatsFrom (kept opt chunks.flatten) all global) :
    ∃ files ix, buildIndex P hash opt global chunks = .ok files ∧ openIndex P dir files = .ok ix ∧
      ix.docids = (kept opt chunks.flatten).map Doc.pid ∧ ix.doclen = docLengths (kept opt chunks.flatten) ∧
      ∀ s : Bytes, (s ∉ vocabulary (kept opt chunks.flatten) → ix.termId s = .ok none) ∧
        ∀ i, (vocabulary (kept opt chunks.flatten))[i]? = some s → ix.termId s = .ok (some i) ∧
          ∃ info, ix.terms[i]? = some info ∧
            info.df = (invertedTerm (kept opt chunks.flatten) s).docs.length ∧
            info.cf = (invertedTerm (kept opt chunks.flatten) s).tfs.sum ∧
            ∀ c ∈ opt.codecs, ix.postings P i c = .ok ((invertedTerm (kept opt chunks.flatten) s).docs,
              (invertedTerm (kept opt chunks.flatten) s).tfs) := by
  obtain ⟨files, built, opened⟩ := build_opens (P := P) hash opt dir some_codec fits stats
  refine ⟨files, _, built, opened, rfl, rfl, fun s => ?_⟩
  obtain ⟨found, run, spec⟩ := @builtIndex_termId P _ _ all global fits s
  refine ⟨fun absent => ?_, fun i at_i => ⟨?_, ?_⟩⟩
  · cases found with
    | none => exact run
    | some i => exact absurd (List.mem_of_getElem? ((spec i).mp rfl)) absent
  · rw [run, (spec i).mpr at_i]
  · have at_term : (inverted (kept opt chunks.flatten))[i]? = some (invertedTerm (kept opt chunks.flatten) s) := by
      rw [inverted, List.getElem?_map, at_i]
      rfl
    obtain ⟨info, at_info, df, cf, lists⟩ := builtIndex_postings fits at_term
    exact ⟨info, at_info, df, cf, fun c mem => lists c (decide_eq_true mem)⟩

variable (sound : P.Sound)
include sound

/-- An index of some documents, with statistics of its own or of all of them. -/
theorem build_serves {global : Option LexicalIndex} {all : List Doc}
    (stats : StatsFrom (kept opt chunks.flatten) all global) :
    ∃ files ix, buildIndex P hash opt global chunks = .ok files ∧ openIndex P dir files = .ok ix ∧
      Serving P (kept opt chunks.flatten) all ix := by
  obtain ⟨files, built, opened⟩ := build_opens (P := P) hash opt dir some_codec fits stats
  have present : ∃ codec, decide (codec ∈ opt.codecs) = true := by
    obtain ⟨codec, mem⟩ := List.exists_mem_of_ne_nil _ some_codec
    exact ⟨codec, decide_eq_true mem⟩
  refine ⟨files, _, built, opened, rfl, ?_, ?_, ?_, ?_⟩
  · exact congrArg Prod.fst (scoreStats_eq fits stats)
  · exact congrArg Prod.snd (scoreStats_eq fits stats)
  · intro s mem
    obtain ⟨found, run, spec⟩ := @builtIndex_termId P _ _ all global fits s
    obtain ⟨i, at_i⟩ := List.mem_iff_getElem?.mp mem
    have at_term : (inverted (kept opt chunks.flatten))[i]? = some (invertedTerm (kept opt chunks.flatten) s) := by
      rw [inverted, List.getElem?_map, at_i]
      rfl
    exact ⟨i, by rw [run, (spec i).mpr at_i], builtIndex_idfDf fits stats at_term⟩
  · exact fun opt valid rawTerms dl s clean => builtIndex_search sound fits stats present valid rawTerms clean dl

/-- **Building, opening and searching.** Whatever the hash function, the posting cap and the chunks, the
index of the documents of this partition builds and opens, and a search of it answers, on every codec
and with every algorithm, with the best of these documents by BM25. -/
theorem built_answers :
    ∃ files ix, buildIndex P hash opt none chunks = .ok files ∧ openIndex P dir files = .ok ix ∧
      ∀ (query : SearchOptions), query.Valid → ∀ (rawTerms : List Bytes) (dl : Deadline) (s : Scratch), s.Clean →
        ∃ result, ix.search P rawTerms query dl s = .ok result ∧
          Answers (ranked P (Collection.of (kept opt chunks.flatten)) query rawTerms (kept opt chunks.flatten))
            query dl result := by
  obtain ⟨files, ix, built, opened, serving⟩ := build_serves hash opt dir some_codec fits sound (.own rfl)
  exact ⟨files, ix, built, opened, serving.answers⟩

end Build

/-! ## Three documents -/

/-- The platform at the statistics of `threeDocs`: the floats nearest to the logarithms of 8/5 and 8/3. -/
def Platform.ofThree : Platform where
  haveNeon := false
  bm25Idf df n := if n = 3 ∧ df = 2 then 15770705 / 33554432 else if n = 3 ∧ df = 1 then 514237 / 524288 else 0
  bm25Avgdl sumDl n := sumDl / n

theorem sound_ofThree : Platform.ofThree.Sound where
  idf df n _ := by
    simp only [Platform.ofThree]
    split_ifs <;> norm_num
  avgdl sumDl n len nonempty := by
    have len : (0 : ℚ) < sumDl := Nat.cast_pos.mpr len
    have nonempty : (0 : ℚ) < n := Nat.cast_pos.mpr nonempty
    exact div_pos len nonempty

/-- Sizes that can be computed. -/
theorem Indexable.of_sizes {docs : List Doc} (has : Codec → Bool)
    (small : ∀ doc ∈ docs, doc.toks.length < 2 ^ 32 ∧ ∀ s ∈ doc.toks, s.length < 2 ^ 32)
    (room : docs.length + 127 < 2 ^ 32) (fewTerms : (vocabulary docs).length < 2 ^ 32)
    (encoded : ∀ s ∈ vocabulary docs, ((invertedTerm docs s).encoded .vbyte).length < 2 ^ 32 ∧
      ((invertedTerm docs s).encoded .bp128).length < 2 ^ 32)
    (blocks : ((inverted docs).map Merged.storedBlocks).sum < 2 ^ 32) : Indexable has docs where
  small doc mem := ⟨(small doc mem).1, (small doc mem).2⟩
  room := room
  fewTerms := fewTerms
  encoded s mem c _ := by
    cases c with
    | vbyte => exact (encoded s mem).1
    | bp128 => exact (encoded s mem).2
  blocks := blocks

theorem indexable_threeDocs (has : Codec → Bool) : Indexable has threeDocs :=
  .of_sizes has (by decide) (by decide) (by decide +kernel) (by decide +kernel) (by decide +kernel)

/-- A search for a term of two documents, twice, and one of one. -/
def threeQuery : SearchOptions where
  k := 2
  algorithm := .maxScore
  model := .lucene
  codec := .bp128
  k1 := kDefaultK1
  b := kDefaultB

theorem valid_threeQuery : threeQuery.Valid where
  k1 := by norm_num [threeQuery, kDefaultK1]
  bNonneg := by norm_num [threeQuery, kDefaultB]
  bLe := by norm_num [threeQuery, kDefaultB]

theorem buildIndex_inverts_three :
    ∃ files ix, buildIndex .ofThree hashBytes ⟨[.bp128], 2, 2, 0⟩ none [threeDocs.take 2, threeDocs.drop 2] =
        .ok files ∧ openIndex .ofThree "ix" files = .ok ix ∧ ix.termId [98] = .ok (some 1) ∧
      ix.postings .ofThree 0 .bp128 = .ok ([0, 1], [2, 1]) := by
  have fits : Indexable (fun c => decide (c ∈ [Codec.bp128]))
      (kept ⟨[.bp128], 2, 2, 0⟩ [threeDocs.take 2, threeDocs.drop 2].flatten) :=
    .of_sizes _ (by decide) (by decide) (by decide +kernel) (by decide +kernel) (by decide +kernel)
  obtain ⟨files, ix, built, opened, -, -, terms⟩ :=
    @buildIndex_inverts .ofThree hashBytes ⟨[.bp128], 2, 2, 0⟩ "ix" [threeDocs.take 2, threeDocs.drop 2] (by decide) fits
      none _ (.own rfl)
  obtain ⟨-, -, -, -, -, lists⟩ := (terms [97]).2 0 (by decide +kernel)
  have found := ((terms [98]).2 1 (by decide +kernel)).1
  exact ⟨files, ix, built, opened, found, lists .bp128 (by decide)⟩

theorem built_answers_three :
    ∃ files ix, buildIndex .ofThree hashBytes ⟨[.vbyte, .bp128], 2, 0, 0⟩ none [threeDocs.take 2, threeDocs.drop 2] =
        .ok files ∧ openIndex .ofThree "ix" files = .ok ix ∧
      ∃ result, ix.search .ofThree [[97], [99], [97]] threeQuery .unlimited .fresh = .ok result ∧
        result.hits = ranked .ofThree (.of threeDocs) threeQuery [[97], [99], [97]] threeDocs kEnd := by
  have all : kept ⟨[.vbyte, .bp128], 2, 0, 0⟩ [threeDocs.take 2, threeDocs.drop 2].flatten = threeDocs := by decide
  obtain ⟨files, ix, built, opened, answers⟩ :=
    built_answers hashBytes ⟨[.vbyte, .bp128], 2, 0, 0⟩ "ix" (by decide) (all ▸ indexable_threeDocs _) sound_ofThree
  rw [all] at answers
  obtain ⟨result, ran, holds⟩ :=
    answers threeQuery valid_threeQuery [[97], [99], [97]] .unlimited .fresh Scratch.clean_fresh
  exact ⟨files, ix, built, opened, result, ran, holds.whole (holds.uncut rfl)⟩

/-- The index of `threeDocs`. -/
def threeIndex : LexicalIndex :=
  builtIndex .ofThree (fun c => decide (c ∈ [Codec.vbyte, Codec.bp128])) none threeDocs threeDocs

theorem threeIndex_serves : ∃ q cs, threeIndex.query .ofThree threeQuery [[97], [99], [97]] = .ok q ∧
    ∀ codec, Serves .ofThree threeIndex codec q cs := by
  obtain ⟨q, cs, query, serves⟩ := builtIndex_serves sound_ofThree
    (indexable_threeDocs fun c => decide (c ∈ [Codec.vbyte, Codec.bp128])) (.own rfl) ⟨.vbyte, rfl⟩ valid_threeQuery
    [[97], [99], [97]]
  refine ⟨q, cs, query, fun codec => serves codec ?_⟩
  cases codec <;> rfl

theorem search_ends_three : ∃ q cs result,
    threeIndex.search .ofThree [[97], [99], [97]] threeQuery (.afterUs 5 (3 * ·)) .fresh = .ok result ∧
      Answers (bestBefore q cs 2) threeQuery (.afterUs 5 (3 * ·)) result := by
  obtain ⟨q, cs, query, serves⟩ := threeIndex_serves
  obtain ⟨result, ran, answers⟩ := search_ends Scratch.clean_fresh query (serves _) (.afterUs 5 (3 * ·))
  exact ⟨q.sc, cs, result, ran, answers⟩

theorem builtIndex_bounds_three : ∃ info, threeIndex.terms[0]? = some info ∧
    (threeIndex.scorer threeQuery).contrib 1 0 2 ≤ (threeIndex.scorer threeQuery).bound 1 info.bound := by
  obtain ⟨info, found, bounds, -⟩ := builtIndex_bounds sound_ofThree
    (indexable_threeDocs fun c => decide (c ∈ [Codec.vbyte, Codec.bp128])) (.own rfl) valid_threeQuery zero_le_one
    (show (inverted threeDocs)[0]? = some ⟨[97], [0, 2], [2, 1]⟩ by decide +kernel)
  exact ⟨info, found, bounds.above (0, 2) (by decide)⟩

end HybridSearch.Engine
