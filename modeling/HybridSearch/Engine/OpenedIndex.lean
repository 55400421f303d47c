/-
# Engine.OpenedIndex -- searching an index that was written and opened

The merged terms of a build are in bytewise order (`bytesLt`), so `term_id` finds a term of
the opened index exactly when it was merged (`termId_spec`).  `asked` are the merged terms
a query names.  For each of them the opened index has a posting list with sound bounds,
and `reopened_search_ends` is what a search of the opened index answers.
-/
import HybridSearch.Engine.LexicalSearch
import HybridSearch.Engine.ScoreBounds

namespace HybridSearch.Engine

open HybridSearch.Theory

set_option autoImplicit false

/-! ## Byte order -/

theorem bytesKey_inj {a b : Bytes} : bytesKey a = bytesKey b ↔ a = b :=
  (List.map_injective_iff.mpr fun _ _ same => UInt8.toNat_inj.mp same).eq_iff

theorem bytesLt_trans {a b c : Bytes} (first : bytesLt a b) (second : bytesLt b c) : bytesLt a c :=
  lt_trans first second

theorem bytesLt_irrefl (a : Bytes) : ¬bytesLt a a := lt_irrefl (bytesKey a)

theorem bytesLt_or (a b : Bytes) : bytesLt a b ∨ a = b ∨ bytesLt b a := by
  rw [← bytesKey_inj]
  exact lt_trichotomy (bytesKey a) (bytesKey b)

theorem nodup_of_ordered {names : List Bytes} (ordered : names.Pairwise bytesLt) : names.Nodup := by
  refine ordered.imp fun {a b} less => ?_
  rintro rfl
  exact bytesLt_irrefl a less

/-! ## term_id -/

/-- The index names its terms `names`. -/
def Named (ix : LexicalIndex) (names : List Bytes) : Prop :=
  ix.terms.length = names.length ∧ ∀ (i : Nat) (name : Bytes), names[i]? = some name →
    ∃ t, ix.terms[i]? = some t ∧ ix.termString t = name

section Lookup

variable {ix : LexicalIndex} {names : List Bytes} (ordered : names.Pairwise bytesLt) {term : Bytes}
include ordered

theorem before_pivot {i mid : Nat} {name other : Bytes} (at_mid : names[mid]? = some name)
    (at_i : names[i]? = some other) (le : i ≤ mid) (less : bytesLt name term) : other ≠ term := by
  rintro rfl
  rcases Nat.lt_or_eq_of_le le with before | rfl
  · obtain ⟨mid_lt, rfl⟩ := List.getElem?_eq_some_iff.mp at_mid
    obtain ⟨i_lt, rfl⟩ := List.getElem?_eq_some_iff.mp at_i
    exact bytesLt_irrefl _ (bytesLt_trans (List.pairwise_iff_getElem.mp ordered i mid i_lt mid_lt before) less)
  · rw [at_mid] at at_i
    cases at_i
    exact bytesLt_irrefl _ less

theorem after_pivot {i mid : Nat} {name other : Bytes} (at_mid : names[mid]? = some name)
    (at_i : names[i]? = some other) (le : mid ≤ i) (less : bytesLt term name) : other ≠ term := by
  rintro rfl
  rcases Nat.lt_or_eq_of_le le with before | rfl
  · obtain ⟨mid_lt, rfl⟩ := List.getElem?_eq_some_iff.mp at_mid
    obtain ⟨i_lt, rfl⟩ := List.getElem?_eq_some_iff.mp at_i
    exact bytesLt_irrefl _ (bytesLt_trans less (List.pairwise_iff_getElem.mp ordered mid i mid_lt i_lt before))
  · rw [at_mid] at at_i
    cases at_i
    exact bytesLt_irrefl _ less

theorem searchTerm_spec (named : Named ix names) {fuel lo hi : Nat} (enough : hi - lo ≤ fuel)
    (inside : hi ≤ names.length) :
    ∃ found, ix.searchTerm term fuel lo hi = .ok found ∧
      ∀ i, found = some i ↔ lo ≤ i ∧ i < hi ∧ names[i]? = some term := by
  induction fuel generalizing lo hi with
  | zero =>
      refine ⟨none, by rw [LexicalIndex.searchTerm, if_neg (by omega)], fun i => ?_⟩
      constructor
      · intro same
        cases same
      · rintro ⟨low, high, -⟩
        omega
  | succ fuel ih =>
      rw [LexicalIndex.searchTerm]
      by_cases lo_lt : lo < hi
      · have mid_lt : (lo + hi) / 2 < names.length := by omega
        have at_mid := List.getElem?_eq_getElem mid_lt
        obtain ⟨t, found, str⟩ := named.2 _ _ at_mid
        rw [if_pos lo_lt]
        dsimp only
        rw [at?_eq_ok found, ok_bind, str]
        rcases bytesLt_or names[(lo + hi) / 2] term with less | same | more
        · have differ : names[(lo + hi) / 2] ≠ term := fun same => bytesLt_irrefl term (same ▸ less)
          obtain ⟨result, run, spec⟩ := @ih ((lo + hi) / 2 + 1) hi (by omega) inside
          rw [if_neg differ, if_pos less]
          refine ⟨result, run, fun i => (spec i).trans ⟨fun all => ⟨by omega, all.2⟩, fun all => ⟨?_, all.2⟩⟩⟩
          by_contra before
          exact before_pivot ordered at_mid all.2.2 (by omega) less rfl
        · refine ⟨some ((lo + hi) / 2), by rw [if_pos same]; rfl, fun i => ?_⟩
          constructor
          · rintro ⟨⟩
            exact ⟨by omega, by omega, same ▸ at_mid⟩
          · rintro ⟨low, high, at_i⟩
            obtain ⟨i_lt, at_i⟩ := List.getElem?_eq_some_iff.mp at_i
            exact congrArg some ((nodup_of_ordered ordered).getElem_inj_iff.mp (same.trans at_i.symm))
        · have differ : names[(lo + hi) / 2] ≠ term := fun same => bytesLt_irrefl term (same ▸ more)
          have not_less : ¬bytesLt names[(lo + hi) / 2] term := fun less =>
            bytesLt_irrefl _ (bytesLt_trans less more)
          obtain ⟨result, run, spec⟩ := @ih lo ((lo + hi) / 2) (by omega) (by omega)
          rw [if_neg differ, if_neg not_less]
          refine ⟨result, run, fun i => (spec i).trans ⟨fun all => ⟨all.1, by omega, all.2.2⟩,
            fun all => ⟨all.1, ?_, all.2.2⟩⟩⟩
          by_contra after
          exact after_pivot ordered at_mid all.2.2 (by omega) more rfl
      · rw [if_neg lo_lt]
        refine ⟨none, rfl, fun i => ?_⟩
        constructor
        · intro same
          cases same
        · rintro ⟨low, high, -⟩
          omega

/-- **`term_id` finds a term exactly when the index has it.** -/
theorem termId_spec (named : Named ix names) :
    ∃ found, ix.termId term = .ok found ∧ ∀ i, found = some i ↔ names[i]? = some term := by
  have whole : ix.terms.length - 0 ≤ ix.terms.length := Nat.sub_le _ _
  obtain ⟨found, run, spec⟩ := @searchTerm_spec ix names ordered term named _ _ _ whole named.1.le
  refine ⟨found, run, fun i => (spec i).trans ⟨fun all => all.2.2, fun at_i => ⟨Nat.zero_le i, ?_, at_i⟩⟩⟩
  rw [named.1]
  exact (List.getElem?_eq_some_iff.mp at_i).1

end Lookup

/-! ## The query -/

/-- The merged terms that the raw terms name, each with its count. -/
def asked (terms : List Merged) (uniq : List (Bytes × Nat)) : List (Merged × Nat) :=
  uniq.filterMap fun u => (terms.find? fun t => decide (t.str = u.1)).map fun t => (t, u.2)

/-- The clause that the engine makes of a term it is asked for. -/
structure AskedTerm (P : Platform) (ix : LexicalIndex) (opt : SearchOptions) (terms : List Merged) (df : Merged → Nat)
    (a : Merged × Nat) (t : QTerm) : Prop where
  place : terms[t.id]? = some a.1
  weight : t.weight = bm25Weight opt.model a.2 (P.bm25Idf (df a.1) ix.idfN) opt.k1
  ub : ∃ info, ix.terms[t.id]? = some info ∧ t.ub = (ix.scorer opt).bound t.weight info.bound

section Ask

variable {P : Platform} {ix : LexicalIndex} {opt : SearchOptions} {terms : List Merged} {df : Merged → Nat}
  (ordered : (terms.map Merged.str).Pairwise bytesLt) (named : Named ix (terms.map Merged.str))
  (dfs : ∀ (i : Nat) (t : Merged), terms[i]? = some t → ix.idfDf i = .ok (df t))
include ordered

theorem find_term {i : Nat} {t : Merged} (at_i : terms[i]? = some t) :
    (terms.find? fun other => decide (other.str = t.str)) = some t := by
  obtain ⟨inside, rfl⟩ := List.getElem?_eq_some_iff.mp at_i
  refine List.find?_eq_some_iff_getElem.mpr ⟨decide_eq_true rfl, i, inside, rfl, fun j before => ?_⟩
  have less := List.pairwise_iff_getElem.mp ordered j i (by simp; omega) (by simpa using inside) before
  rw [List.getElem_map, List.getElem_map] at less
  rw [Bool.not_eq_true', decide_eq_false_iff_not]
  exact fun same => bytesLt_irrefl _ (same ▸ less)

include named dfs

theorem clause_spec (u : Bytes × Nat) :
    ∃ t, ix.clause P opt u = .ok t ∧
      match (terms.find? fun t => decide (t.str = u.1)).map fun t => (t, u.2) with
      | none => t = none
      | some a => ∃ q, t = some q ∧ AskedTerm P ix opt terms df a q := by
  obtain ⟨found, run, spec⟩ := @termId_spec ix _ ordered u.1 named
  rw [LexicalIndex.clause, run, ok_bind]
  cases found with
  | none =>
      refine ⟨none, rfl, ?_⟩
      have absent : (terms.find? fun t => decide (t.str = u.1)) = none := by
        refine List.find?_eq_none.mpr fun t mem same => ?_
        obtain ⟨i, at_i⟩ := List.mem_iff_getElem?.mp mem
        have := (spec i).mpr (by rw [List.getElem?_map, at_i, Option.map_some, of_decide_eq_true same])
        cases this
      rw [absent]
      rfl
  | some i =>
      have at_name := (spec i).mp rfl
      obtain ⟨info, at_info, -⟩ := named.2 i u.1 at_name
      rw [List.getElem?_map, Option.map_eq_some_iff] at at_name
      obtain ⟨t, at_i, same⟩ := at_name
      have found := find_term ordered at_i
      rw [same] at found
      dsimp only
      rw [at?_eq_ok at_info, ok_bind, dfs i t at_i, ok_bind, found]
      exact ⟨_, rfl, _, rfl, at_i, rfl, info, at_info, rfl⟩

/-- **The query** has one clause for each term it names that the index has. -/
theorem query_spec (rawTerms : List Bytes) :
    ∃ q, ix.query P opt rawTerms = .ok q ∧ q.sc = ix.scorer opt ∧
      List.Forall₂ (AskedTerm P ix opt terms df) (asked terms (clauses rawTerms)) q.terms := by
  have run (uniq : List (Bytes × Nat)) : ∃ found, uniq.mapM (ix.clause P opt) = .ok found ∧
      List.Forall₂ (AskedTerm P ix opt terms df) (asked terms uniq) found.reduceOption := by
    induction uniq with
    | nil => exact ⟨[], rfl, .nil⟩
    | cons u rest ih =>
        obtain ⟨more, run, related⟩ := ih
        obtain ⟨t, clause, spec⟩ := @clause_spec P ix opt terms df ordered named dfs u
        rw [List.mapM_cons, clause, ok_bind, run, ok_bind]
        refine ⟨t :: more, rfl, ?_⟩
        rw [asked, List.filterMap_cons]
        revert spec
        cases (terms.find? fun t => decide (t.str = u.1)).map fun t => (t, u.2) with
        | none =>
            rintro rfl
            exact related
        | some a =>
            rintro ⟨q, rfl, here⟩
            exact .cons here related
  obtain ⟨found, all, related⟩ := run (clauses rawTerms)
  rw [LexicalIndex.query, all, ok_bind]
  exact ⟨_, rfl, rfl, related⟩

end Ask

/-! ## The posting lists -/

/-- The merged terms and the documents of a build fit together: what the merge loop and the analyzer
guarantee of them. -/
structure Corpus (has : Codec → Bool) (pids dls : List Nat) (terms : List Merged) : Prop where
  docs : pids.length = dls.length
  lengths : ∀ d ∈ dls, d < 2 ^ 32
  few : pids.length < kEnd
  fewTerms : terms.length < 2 ^ 32
  storable : ∀ t ∈ terms, t.Storable has
  counted : BlocksCounted terms
  ordered : (terms.map Merged.str).Pairwise bytesLt
  sized : ∀ t ∈ terms, ∀ d ∈ t.docs, 0 < dls.getD d 0

section Restored

variable {P : Platform} {has : Codec → Bool} {global : Option LexicalIndex} {pids dls : List Nat}
  {terms : List Merged} {globalDf : Option (List Nat)} {opt : SearchOptions}

/-- The index that `open` arrives at. -/
abbrev reopened (P : Platform) (has : Codec → Bool) (global : Option LexicalIndex) (pids dls : List Nat)
    (terms : List Merged) (globalDf : Option (List Nat)) : LexicalIndex :=
  restored P has global pids (buildStats P global dls) terms globalDf

theorem norms_getD (avgdl : ℚ) (d : Nat) :
    (DocStats.build avgdl dls).norms.getD d 0 = SmallFloat.intToByte4 (dls.getD d 0) := by
  rw [DocStats.build]
  dsimp only
  rw [List.getD_eq_getElem?_getD, List.getElem?_map, List.getD_eq_getElem?_getD]
  cases dls[d]? with
  | none => decide
  | some dl => rfl

theorem scorer_reads (range : ((reopened P has global pids dls terms globalDf).scorer opt).bn.InRange) :
    ((reopened P has global pids dls terms globalDf).scorer opt).Reads (buildStats P global dls) where
  range := range
  dl _ := rfl
  norm := norms_getD 0
  coded := norms_getD 0
  tight same := by
    obtain ⟨k1, b⟩ := of_decide_eq_true same
    simp only [LexicalIndex.scorer, buildStats, DocStats.build, k1, b]
    rfl

theorem inRange_build (range : ((reopened P has global pids dls terms globalDf).scorer opt).bn.InRange) (m : Model) :
    ((buildStats P global dls).bn m).InRange where
  k1 := by norm_num [buildStats, DocStats.build, kDefaultK1]
  bNonneg := by norm_num [buildStats, DocStats.build, kDefaultB]
  bLe := by norm_num [buildStats, DocStats.build, kDefaultB]
  avgdl := range.avgdl

variable (corpus : Corpus has pids dls terms)
include corpus

theorem Corpus.inside {t : Merged} (mem : t ∈ terms) {d : Nat} (doc : d ∈ t.docs) : d < pids.length := by
  by_contra past
  have sized := corpus.sized t mem d doc
  rw [List.getD_eq_default _ _ (corpus.docs ▸ Nat.not_lt.mp past)] at sized
  exact lt_irrefl 0 sized

theorem postings_nonneg (range : ((reopened P has global pids dls terms globalDf).scorer opt).bn.InRange)
    {t : Merged} (mem : t ∈ terms) :
    ∀ p ∈ t.postings, ∀ m, 0 ≤ ((buildStats P global dls).ofPosting p).x m := by
  intro p p_mem m
  have pos := corpus.sized t mem p.1 (List.of_mem_zip p_mem).1
  have scaled := scaledTf_nonneg (inRange_build range m) pos p.2
  simp only [DocStats.ofPosting]
  rw [buildStats, norms_getD]
  exact scaled

/-- The postings of a merged term are where its documents are. -/
theorem Corpus.posting_mem {t : Merged} (mem : t ∈ terms) {d : Nat} (doc : d ∈ t.docs) :
    (d, t.tfs.getD (t.docs.idxOf d) 0) ∈ slice t.postings (t.docs.idxOf d / kBlockSize) := by
  have i_lt : t.docs.idxOf d < t.docs.length := List.idxOf_lt_length_iff.mpr doc
  have i_lt' : t.docs.idxOf d < t.tfs.length := (corpus.storable t mem).lengths ▸ i_lt
  have i_lt'' : t.docs.idxOf d < t.postings.length := by
    rw [Merged.postings, List.length_zip]
    omega
  have at_i : t.postings[t.docs.idxOf d] = (d, t.tfs.getD (t.docs.idxOf d) 0) := by
    simp only [Merged.postings, List.getElem_zip, List.getElem_idxOf, List.getD_eq_getElem _ _ i_lt']
  rw [← at_i, slice, List.mem_take_iff_getElem]
  refine ⟨t.docs.idxOf d % kBlockSize, ?_, ?_⟩
  · have short := Nat.mod_lt (t.docs.idxOf d) (show 0 < kBlockSize by decide)
    have whole := Nat.div_add_mod' (t.docs.idxOf d) kBlockSize
    rw [List.length_drop]
    omega
  · rw [List.getElem_drop]
    congr 1
    exact Nat.div_add_mod' _ _

theorem Corpus.framed {globalDf : Option (List Nat)} (globals : (globalDf = none ∧ global = none) ∨
    ∃ g df, global = some g ∧ globalDf = some df ∧ df.length = terms.length) :
    Framed global pids (buildStats P global dls) terms globalDf where
  docs := corpus.docs
  norms := List.length_map _
  lengths := corpus.lengths
  fewTerms := corpus.fewTerms
  globalDf := globals

variable (framed : Framed global pids (buildStats P global dls) terms globalDf)
include framed

theorem named_reopened : Named (reopened P has global pids dls terms globalDf) (terms.map Merged.str) := by
  have recovered := recovered_restored (P := P) framed corpus.storable corpus.counted
  refine ⟨recovered.count.trans (List.length_map _).symm, fun i name at_i => ?_⟩
  rw [List.getElem?_map, Option.map_eq_some_iff] at at_i
  obtain ⟨t, at_i, rfl⟩ := at_i
  obtain ⟨info, found, term⟩ := recovered.term i t at_i
  exact ⟨info, found, term.str⟩

/-- **The posting list of an asked term** has sound bounds. -/
theorem asked_good (range : ((reopened P has global pids dls terms globalDf).scorer opt).bn.InRange)
    {codec : Codec} (present : has codec = true) {df : Merged → Nat} {a : Merged × Nat} {q : QTerm}
    (here : AskedTerm P (reopened P has global pids dls terms globalDf) opt terms df a q) (weight : 0 ≤ q.weight) :
    ∃ c, ClauseOf P (reopened P has global pids dls terms globalDf) codec
        ((reopened P has global pids dls terms globalDf).scorer opt) q c ∧
      c.docs = a.1.docs ∧ c.tfs = a.1.tfs ∧ c.Sequential P (reopened P has global pids dls terms globalDf) codec := by
  have mem : a.1 ∈ terms := List.mem_of_getElem? here.place
  have storable := corpus.storable a.1 mem
  have recovered := recovered_restored (P := P) framed corpus.storable corpus.counted
  obtain ⟨info, found, term⟩ := recovered.term q.id a.1 here.place
  obtain ⟨info', found', ub⟩ := here.ub
  rw [found] at found'
  cases found'
  have reads := scorer_reads range
  have nonneg := postings_nonneg corpus range mem
  have pos : ∀ p ∈ a.1.postings, 0 < (buildStats P global dls).dls.getD p.1 0 := fun p p_mem =>
    corpus.sized a.1 mem p.1 (List.of_mem_zip p_mem).1
  have list : PostingList P (reopened P has global pids dls terms globalDf) info codec a.1.docs a.1.tfs :=
    .of_recovered term storable (fun d doc => (corpus.inside mem doc).trans corpus.few) present
  have term_bound {d : Nat} (doc : d ∈ a.1.docs) : ((reopened P has global pids dls terms globalDf).scorer opt).contrib
      q.weight d (a.1.tfs.getD (a.1.docs.idxOf d) 0) ≤ q.ub := by
    have posting := Codec.mem_of_mem_slice (corpus.posting_mem mem doc)
    have sound := (DocStats.termBound_covers nonneg).bound_sound reads pos weight posting
    rw [ub, term.bound]
    exact sound
  have block_bound {d : Nat} (doc : d ∈ a.1.docs) {bound : BoundInfo}
      (is_bound : BoundOf (reopened P has global pids dls terms globalDf) info a.1.docs
        (a.1.docs.idxOf d / kBlockSize) bound) :
      ((reopened P has global pids dls terms globalDf).scorer opt).contrib q.weight d
        (a.1.tfs.getD (a.1.docs.idxOf d) 0) ≤
        ((reopened P has global pids dls terms globalDf).scorer opt).bound q.weight bound := by
    have posting := corpus.posting_mem mem doc
    rw [BoundOf] at is_bound
    split_ifs at is_bound with several
    · have j_lt : a.1.docs.idxOf d / kBlockSize < a.1.blocks := by
        have := List.idxOf_lt_length_iff.mpr doc
        simp only [Merged.blocks, blockCount, kBlockSize]
        omega
      obtain ⟨b, at_b, -, -, bound_eq⟩ := term.block several _ j_lt
      obtain ⟨b', at_b', rfl⟩ := is_bound
      rw [at_b] at at_b'
      cases at_b'
      have sound := (DocStats.blockBound_covers nonneg _).bound_sound reads
        (fun p p_mem => pos p (Codec.mem_of_mem_slice p_mem)) weight posting
      rw [bound_eq]
      exact sound
    · have sound := (DocStats.termBound_covers nonneg).bound_sound reads pos weight (Codec.mem_of_mem_slice posting)
      rw [← is_bound, term.bound]
      exact sound
  refine ⟨⟨q, info, a.1.docs, a.1.tfs⟩, ⟨rfl, found, list, corpus.counted.term a.1 mem, fun d doc => ?_,
    fun d doc => ?_, fun d doc bound is_bound => ?_⟩, rfl, rfl, ?_⟩
  · rw [Clause.gain, if_pos doc, reads.contrib_eq]
    exact scoreScaled_nonneg weight (scaledTf_nonneg range (corpus.sized a.1 mem d doc) _)
  · rw [Clause.gain, if_pos doc]
    exact term_bound doc
  · rw [Clause.gain, if_pos doc]
    exact block_bound doc is_bound
  · have split := flatMap_split here.place fun t => t.encoded codec
    have mapped : (reopened P has global pids dls terms globalDf).postingsOf codec =
        some (terms.flatMap fun t => t.encoded codec) := by
      simp only [reopened, restored, present, if_true]
    refine ⟨_, mapped, fun j =>
      (List.range' j (a.1.blocks - j)).flatMap (Codec.encodedBlock codec a.1.docs a.1.tfs) ++
        (terms.drop (q.id + 1)).flatMap fun t => t.encoded codec, fun j inside => ?_, ?_⟩
    · have inside : j < blockCount a.1.docs.length := inside
      have next : a.1.blocks - j = a.1.blocks - (j + 1) + 1 := by
        simp only [Merged.blocks]
        omega
      dsimp only
      rw [next, List.range'_succ, List.flatMap_cons, List.append_assoc, term.df]
      exact Codec.reads_blockOf P.haveNeon codec storable.lengths storable.docsFit storable.tfsFit j _
    · dsimp only
      rw [term.postOff codec present, split, List.drop_left' rfl, Nat.sub_zero, ← List.range_eq_range']
      rfl

end Restored

/-! ## What a search answers -/

/-- Some asked term is in the document. -/
def NamesDoc (as : List (Merged × Nat)) (d : Nat) : Prop := ∃ a ∈ as, d ∈ a.1.docs

instance (as : List (Merged × Nat)) : DecidablePred (NamesDoc as) := fun _ => inferInstanceAs (Decidable (∃ a ∈ as, _))

/-- The BM25 score of a document: the sum over the asked terms it has. -/
def bm25 (sc : Scorer) (weight : Merged × Nat → ℚ) (as : List (Merged × Nat)) (d : Nat) : ℚ :=
  (as.map fun a => if d ∈ a.1.docs then sc.contrib (weight a) d (a.1.tfs.getD (a.1.docs.idxOf d) 0) else 0).sum

/-- The best `k` documents before `F` by BM25. -/
def bm25Best (sc : Scorer) (weight : Merged × Nat → ℚ) (as : List (Merged × Nat)) (k F : Nat) : List ScoredDoc :=
  BestK.best ranksLe k (below (NamesDoc as) (bm25 sc weight as) F)

/-- The weight of an asked term, from its document frequency among `n` documents. -/
def askedWeight (P : Platform) (opt : SearchOptions) (df : Merged → Nat) (n : Nat) (a : Merged × Nat) : ℚ :=
  bm25Weight opt.model a.2 (P.bm25Idf (df a.1) n) opt.k1

/-- Clauses with the postings and the weights of the asked terms score what these do. -/
theorem bestBefore_eq {sc : Scorer} {weight : Merged × Nat → ℚ} {as : List (Merged × Nat)} {clauses : List Clause}
    (same : List.Forall₂ (fun a c => c.term.weight = weight a ∧ c.docs = a.1.docs ∧ c.tfs = a.1.tfs) as clauses)
    (k : Nat) : bestBefore sc clauses k = bm25Best sc weight as k := by
  have matched_iff (d : Nat) : matched clauses d ↔ NamesDoc as d := by
    rw [matched, NamesDoc]
    induction same with
    | nil => simp only [List.not_mem_nil, false_and, exists_false]
    | cons here _ ih => simp only [List.mem_cons, or_and_right, exists_or, exists_eq_left, ih, here.2.1]
  have scores (d : Nat) : score sc clauses d = bm25 sc weight as d := by
    rw [score_eq_map, bm25]
    clear matched_iff
    induction same with
    | nil => rfl
    | cons here _ ih =>
        rw [List.map_cons, List.map_cons, List.sum_cons, List.sum_cons, ih, Clause.gain, here.1, here.2.1, here.2.2]
  funext F
  rw [bestBefore, bm25Best, below, below]
  simp only [scores, matched_iff]

section Answer

variable {P : Platform} {has : Codec → Bool} {global : Option LexicalIndex} {pids dls : List Nat}
  {terms : List Merged} {globalDf : Option (List Nat)} {opt : SearchOptions} {df : Merged → Nat}

/-- The clauses of a query, with the posting lists of the index. -/
theorem asked_clauses (corpus : Corpus has pids dls terms)
    (framed : Framed global pids (buildStats P global dls) terms globalDf)
    (range : ((reopened P has global pids dls terms globalDf).scorer opt).bn.InRange)
    {codec : Codec} (present : has codec = true) {as : List (Merged × Nat)} {qs : List QTerm}
    (related : List.Forall₂ (AskedTerm P (reopened P has global pids dls terms globalDf) opt terms df) as qs)
    (weights : ∀ a ∈ as, 0 ≤ askedWeight P opt df (reopened P has global pids dls terms globalDf).idfN a) :
    ∃ cs, List.Forall₂ (ClauseOf P (reopened P has global pids dls terms globalDf) codec
        ((reopened P has global pids dls terms globalDf).scorer opt)) qs cs ∧
      List.Forall₂ (fun a c => c.term.weight =
        askedWeight P opt df (reopened P has global pids dls terms globalDf).idfN a ∧
          c.docs = a.1.docs ∧ c.tfs = a.1.tfs) as cs ∧
      (∀ c ∈ cs, c.Sequential P (reopened P has global pids dls terms globalDf) codec) ∧
      ∀ c ∈ cs, ∀ d ∈ c.docs, d < (reopened P has global pids dls terms globalDf).stats.numDocs := by
  induction related with
  | nil => exact ⟨[], .nil, .nil, List.forall_mem_nil _, List.forall_mem_nil _⟩
  | @cons a q as qs here _ ih =>
      obtain ⟨own, weights⟩ := List.forall_mem_cons.mp weights
      obtain ⟨cs, of, same, sequential, inside⟩ := ih weights
      obtain ⟨c, clause, docs, tfs, reads⟩ := asked_good corpus framed range present here (here.weight ▸ own)
      have mem : a.1 ∈ terms := List.mem_of_getElem? here.place
      refine ⟨c :: cs, .cons clause of, .cons ⟨?_, docs, tfs⟩ same, List.forall_mem_cons.mpr ⟨reads, sequential⟩,
        List.forall_mem_cons.mpr ⟨fun d doc => ?_, inside⟩⟩
      · rw [clause.term, here.weight]
        rfl
      · rw [docs] at doc
        exact corpus.inside mem doc

/-- A search of the opened index, for whichever document frequencies it scores with. -/
theorem reopened_search_ends (corpus : Corpus has pids dls terms)
    (framed : Framed global pids (buildStats P global dls) terms globalDf)
    (range : ((reopened P has global pids dls terms globalDf).scorer opt).bn.InRange)
    (dfs : ∀ (i : Nat) (t : Merged), terms[i]? = some t →
      (reopened P has global pids dls terms globalDf).idfDf i = .ok (df t))
    {rawTerms : List Bytes}
    (weights : ∀ a ∈ asked terms (clauses rawTerms),
      0 ≤ askedWeight P opt df (reopened P has global pids dls terms globalDf).idfN a)
    (some_codec : ∃ codec, has codec = true) {s : Scratch} (clean : s.Clean) (dl : Deadline) :
    ∃ result, (reopened P has global pids dls terms globalDf).search P rawTerms opt dl s = .ok result ∧
      Answers (bm25Best ((reopened P has global pids dls terms globalDf).scorer opt)
        (askedWeight P opt df (reopened P has global pids dls terms globalDf).idfN)
        (asked terms (clauses rawTerms)) opt.k) opt dl result := by
  set ix := reopened P has global pids dls terms globalDf with ix_eq
  obtain ⟨q, query, sc_eq, related⟩ :=
    @query_spec P ix opt terms df corpus.ordered (named_reopened corpus framed) dfs rawTerms
  have has_eq (codec : Codec) : ix.hasCodec codec = has codec := by
    rw [LexicalIndex.hasCodec, ix_eq]
    simp only [reopened, restored]
    cases has codec <;> rfl
  have present := hasCodec_codecFor (some_codec.imp fun codec own => (has_eq codec).trans own) opt.codec
  rw [has_eq] at present
  have clausesOf := asked_clauses corpus framed range present related weights
  rw [← sc_eq] at clausesOf
  obtain ⟨cs, of, same, sequential, inside⟩ := clausesOf
  obtain ⟨result, ran, answers⟩ := search_ends clean query ⟨of, sequential, inside⟩ dl
  rw [bestBefore_eq same, sc_eq] at answers
  exact ⟨result, ran, answers⟩

end Answer

end HybridSearch.Engine
