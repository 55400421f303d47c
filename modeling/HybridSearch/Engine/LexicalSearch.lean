/-
# Engine.LexicalSearch -- LexicalIndex::search, whatever the algorithm (search.cc)

Five algorithms walk the clauses of a query.  Over posting lists whose bounds are bounds
(`Clause.Good`) each leaves the best `k` of the matching documents with their full scores,
unless its deadline cuts it off.

* `runDaat_ends`, `runMaxScore_ends`, `runWand_ends`: how the document-at-a-time searches end;
* `search_ends`: how a search ends, whatever its algorithm, codec and deadline;
* `search_agrees`: without a deadline all algorithms answer the same.
-/
import HybridSearch.Engine.ExhaustiveSafety
import HybridSearch.Engine.WandSafety

namespace HybridSearch.Engine

open HybridSearch.Theory

set_option autoImplicit false

section Runs

variable {P : Platform} {ix : LexicalIndex} {codec : Codec} {sc : Scorer} {clauses : List Clause}
  {terms : List QTerm} {k : Nat} {dl : Deadline} {slots : List Slot}

/-! ## The cursors at the start -/

theorem Clause.Good.init_at {c : Clause} (good : c.Good sc P ix codec) (i : Nat) :
    ∃ cur, Cursor.init P ix c.info codec = .ok cur ∧ (Slot.mk c.term c.info i cur).At c 0 0 := by
  obtain ⟨cur, started, holds⟩ := good.list.init_holds good.few
  refine ⟨cur, started, rfl, rfl, ⟨_, holds, le_rfl⟩, fun d mem _ => ?_⟩
  obtain ⟨j, j_lt, rfl⟩ := List.mem_iff_getElem.mp mem
  show cur.doc ≤ _
  have nonempty : 0 < c.docs.length := List.length_pos_of_ne_nil good.list.nonempty
  rw [holds.doc_eq, PostingList.doc_inside nonempty, ← List.getD_eq_getElem _ 0 j_lt]
  exact getD_le_getD good.list.ascending (Nat.zero_le j) j_lt

theorem initSlots_spec (front : List Clause) (of : List.Forall₂ (ClauseOf P ix codec sc) terms clauses) :
    ∃ slots, initSlots P ix codec front.length terms = .ok slots ∧
      slots.map Slot.canon = List.range' front.length clauses.length ∧
      ∀ slot ∈ slots, slot.On (front ++ clauses) 0 0 := by
  induction of generalizing front with
  | nil => exact ⟨[], rfl, rfl, List.forall_mem_nil _⟩
  | @cons t c terms rest here _ ih =>
      obtain ⟨slots, run, canons, on⟩ := ih (front ++ [c])
      obtain ⟨cur, started, stands⟩ := here.good.init_at front.length
      rw [List.length_append, List.length_singleton] at run canons
      rw [List.append_assoc, List.singleton_append] at on
      rw [initSlots, at?_eq_ok here.found, ok_bind, started, ok_bind, run, ok_bind]
      refine ⟨_, rfl, ?_, List.forall_mem_cons.mpr ⟨⟨c, ?_, here.term ▸ stands⟩, on⟩⟩
      · rw [List.map_cons, canons, List.length_cons, List.range'_succ]
      · rw [List.getElem?_append_right le_rfl, Nat.sub_self]
        rfl

theorem walk_start (of : List.Forall₂ (ClauseOf P ix codec sc) terms clauses) :
    ∃ slots, initSlots P ix codec 0 terms = .ok slots ∧ Walk clauses 0 0 slots ∧
      slots.map Slot.canon = List.range clauses.length := by
  obtain ⟨slots, run, canons, on⟩ := initSlots_spec [] of
  rw [List.length_nil, ← List.range_eq_range'] at canons
  exact ⟨slots, run, ⟨List.Perm.of_eq canons, on⟩, canons⟩

/-- There are enough rounds for all postings. -/
theorem remaining_lt_rounds (good : ∀ c ∈ clauses, c.Good sc P ix codec)
    (on : ∀ slot ∈ slots, slot.On clauses 0 0) : remaining clauses slots < rounds slots := by
  refine Nat.lt_succ_of_le (List.sum_le_sum fun slot mem => ?_)
  obtain ⟨c, found, stands⟩ := on slot mem
  rw [Slot.remaining, found, stands.info, (good c (List.mem_of_getElem? found)).list.df]
  exact List.countP_le_length

theorem reached_empty : Reached (matched clauses) (score sc clauses) k (TopK.empty k) 0 := by
  rw [Reached, below_zero, BestK.best, List.mergeSort_nil, List.take_nil]
  rfl

/-! ## The searches -/

variable {q : Query}

/-- **How `run_daat` ends.** -/
theorem runDaat_ends (of : List.Forall₂ (ClauseOf P ix codec q.sc) q.terms clauses) (k : Nat) (dl : Deadline) :
    ∃ result, runDaat P ix codec q k dl = .ok result ∧ Ended q.sc clauses k dl result := by
  have good := ClauseOf.good_all of
  obtain ⟨slots, run, walk, -⟩ := walk_start of
  rw [runDaat, run, ok_bind]
  exact daatLoop_ends good reached_empty walk (fun slot _ => Nat.zero_le _) (Nat.zero_le _)
    (remaining_lt_rounds good walk.on)

theorem tally_start (n : Nat) : (Tally.start n).contrib.length = n ∧ (Tally.start n).hit.length = n :=
  ⟨List.length_replicate, List.length_replicate⟩

/-- **How `run_maxscore` ends.** -/
theorem runMaxScore_ends (of : List.Forall₂ (ClauseOf P ix codec q.sc) q.terms clauses) (k : Nat) (dl : Deadline) :
    ∃ result, runMaxScore P ix codec q k dl = .ok result ∧ Ended q.sc clauses k dl result := by
  have good := ClauseOf.good_all of
  obtain ⟨slots, run, walk, canons⟩ := walk_start of
  rw [runMaxScore, run, ok_bind]
  have perm := List.mergeSort_perm slots fun a b => decide (a.term.ub ≤ b.term.ub)
  set ordered := slots.mergeSort fun a b => decide (a.term.ub ≤ b.term.ub)
  have on : ∀ slot ∈ ordered, slot.On clauses 0 0 := fun slot mem => walk.on slot (perm.mem_iff.mp mem)
  have size : ordered.length = clauses.length := by
    rw [perm.length_eq, ← List.length_map Slot.canon, canons, List.length_range]
  obtain ⟨contribs, hits⟩ := tally_start ordered.length
  exact maxScoreLoop_ends good ((perm.map _).trans walk.canons) (sumsOf_prefixSums on) reached_empty
    ⟨rfl, on, fun slot _ => Nat.zero_le _, fun nonempty => absurd nonempty (lt_irrefl 0)⟩ (contribs.trans size)
    (hits.trans size) (Nat.zero_le _) (remaining_lt_rounds good on)

/-- **How `run_wand` ends**, with block bounds or without. -/
theorem runWand_ends (of : List.Forall₂ (ClauseOf P ix codec q.sc) q.terms clauses) (blockMax : Bool) (k : Nat)
    (dl : Deadline) :
    ∃ result, runWand P ix codec blockMax q k dl = .ok result ∧ Ended q.sc clauses k dl result := by
  have good := ClauseOf.good_all of
  obtain ⟨slots, run, walk, canons⟩ := walk_start of
  obtain ⟨perm, sorted⟩ := sortByDoc_spec slots
  have on : ∀ slot ∈ sortByDoc slots, slot.On clauses 0 0 := fun slot mem => walk.on slot (perm.mem_iff.mp mem)
  have size : slots.length = clauses.length := by
    rw [← List.length_map Slot.canon, canons, List.length_range]
  obtain ⟨contribs, hits⟩ := tally_start slots.length
  have enough := remaining_lt_rounds good on
  rw [rounds, (perm.map fun slot : Slot => slot.info.df).sum_eq] at enough
  rw [runWand, run, ok_bind]
  exact wandLoop_ends good reached_empty
    ⟨⟨(perm.map _).trans walk.canons, on⟩, sorted, le_rfl, fun d low less => absurd less (Nat.not_lt.mpr low),
      fun ⟨slot, _, less⟩ => absurd less (Nat.not_lt_zero _)⟩
    (contribs.trans size) (hits.trans size) (Nat.zero_le _) enough

end Runs

/-! ## LexicalIndex::search -/

/-- `LexicalIndex::search` on the scratch of its thread. -/
def LexicalIndex.search (P : Platform) (ix : LexicalIndex) (rawTerms : List Bytes) (opt : SearchOptions)
    (dl : Deadline) (s : Scratch) : Except Fault LexicalResult := do
  let q ← ix.query P opt rawTerms
  if q.terms = [] ∨ opt.k = 0 then pure ⟨[], false⟩
  else
    let codec := ix.codecFor opt.codec
    let ranked (run : Except Fault (TopK × Bool)) : Except Fault LexicalResult := do
      let (top, cut) ← run
      pure ⟨top.takeSorted, cut⟩
    match opt.algorithm with
    | .exhaustive =>
        match runExhaustive P.haveNeon ix q codec opt.k s dl with
        | none => .error .undefined
        | some (.error what, _) => .error (.thrown what)
        | some (.ok result, _) => .ok result
    | .daat => ranked (runDaat P ix codec q opt.k dl)
    | .maxScore => ranked (runMaxScore P ix codec q opt.k dl)
    | .wand => ranked (runWand P ix codec false q opt.k dl)
    | .bmw => ranked (runWand P ix codec true q opt.k dl)

/-- The index has a posting list for every clause of the query. -/
structure Serves (P : Platform) (ix : LexicalIndex) (codec : Codec) (q : Query) (clauses : List Clause) : Prop where
  of : List.Forall₂ (ClauseOf P ix codec q.sc) q.terms clauses
  sequential : ∀ c ∈ clauses, c.Sequential P ix codec
  inside : ∀ c ∈ clauses, ∀ d ∈ c.docs, d < ix.stats.numDocs

/-- The best `k` of the matching documents before `F`. -/
def bestBefore (sc : Scorer) (clauses : List Clause) (k F : Nat) : List ScoredDoc :=
  BestK.best ranksLe k (below (matched clauses) (score sc clauses) F)

/-- How a search ends, when `best F` are the best of the documents before `F`. -/
structure Answers (best : Nat → List ScoredDoc) (opt : SearchOptions) (dl : Deadline) (result : LexicalResult) :
    Prop where
  whole : result.isPartial = false → result.hits = best kEnd
  part : opt.algorithm ≠ .exhaustive → ∃ F, result.hits = best F
  uncut : dl.limited = false → result.isPartial = false

section Search

variable {P : Platform} {ix : LexicalIndex} {clauses : List Clause} {opt : SearchOptions} {dl : Deadline}
  {q : Query}

theorem Ended.answers {result : TopK × Bool} (ended : Ended q.sc clauses opt.k dl result) :
    Answers (bestBefore q.sc clauses opt.k) opt dl ⟨result.1.takeSorted, result.2⟩ where
  whole not_cut := by
    have all := ended.whole not_cut
    rw [Reached] at all
    exact congrArg TopK.heap all
  part _ := by
    obtain ⟨F, reached⟩ := ended.reached
    rw [Reached] at reached
    exact ⟨F, congrArg TopK.heap reached⟩
  uncut := ended.uncut

/-- Nothing matches, or nothing is asked for. -/
theorem bestBefore_nil (nothing : clauses = [] ∨ opt.k = 0) (F : Nat) : bestBefore q.sc clauses opt.k F = [] := by
  rcases nothing with rfl | nothing
  · have nothing : below (matched []) (score q.sc []) F = [] := by
      apply List.eq_nil_iff_forall_not_mem.mpr
      intro c mem
      obtain ⟨-, ⟨c', absent, -⟩, -⟩ := mem_below.mp mem
      cases absent
    rw [bestBefore, nothing, BestK.best, List.mergeSort_nil, List.take_nil]
  · rw [bestBefore, nothing, BestK.best, List.take_zero]

/-- **How a search ends.**  On clean scratch and over posting lists whose bounds are bounds every
search answers: with the best `k` of all matching documents unless its deadline cut it off, and
unless it is the exhaustive one with the best of the documents before some document even then. -/
theorem search_ends {s : Scratch} (clean : s.Clean) {rawTerms : List Bytes}
    (asked : ix.query P opt rawTerms = .ok q) (serves : Serves P ix (ix.codecFor opt.codec) q clauses)
    (dl : Deadline) :
    ∃ result, ix.search P rawTerms opt dl s = .ok result ∧ Answers (bestBefore q.sc clauses opt.k) opt dl result := by
  rw [LexicalIndex.search, asked, ok_bind]
  by_cases unasked : q.terms = [] ∨ opt.k = 0
  · have nothing : clauses = [] ∨ opt.k = 0 := unasked.imp_left fun empty => by
      have lengths := serves.of.length_eq
      rw [empty] at lengths
      exact List.length_eq_zero_iff.mp lengths.symm
    rw [if_pos unasked]
    exact ⟨_, rfl, fun _ => (bestBefore_nil nothing _).symm, fun _ => ⟨0, (bestBefore_nil nothing _).symm⟩, fun _ => rfl⟩
  · rw [if_neg unasked]
    cases algorithm : opt.algorithm with
    | exhaustive =>
        obtain ⟨result, s', ran, whole, uncut⟩ :=
          runExhaustive_ends serves.of serves.sequential serves.inside opt.k dl
        have same := runExhaustive_eq_fresh clean (Option.isSome_of_eq_some ran)
        rw [ran, Option.map_some, Option.map_eq_some_iff] at same
        obtain ⟨⟨_, s''⟩, ran', rfl⟩ := same
        dsimp only
        rw [ran']
        exact ⟨result, rfl, whole, fun other => absurd algorithm other, uncut⟩
    | daat =>
        obtain ⟨result, ran, ended⟩ := runDaat_ends serves.of opt.k dl
        dsimp only
        rw [ran, ok_bind]
        exact ⟨_, rfl, ended.answers⟩
    | maxScore =>
        obtain ⟨result, ran, ended⟩ := runMaxScore_ends serves.of opt.k dl
        dsimp only
        rw [ran, ok_bind]
        exact ⟨_, rfl, ended.answers⟩
    | wand =>
        obtain ⟨result, ran, ended⟩ := runWand_ends serves.of false opt.k dl
        dsimp only
        rw [ran, ok_bind]
        exact ⟨_, rfl, ended.answers⟩
    | bmw =>
        obtain ⟨result, ran, ended⟩ := runWand_ends serves.of true opt.k dl
        dsimp only
        rw [ran, ok_bind]
        exact ⟨_, rfl, ended.answers⟩

/-- A search runs on a codec of the index. -/
theorem hasCodec_codecFor (some_codec : ∃ codec, ix.hasCodec codec = true) (asked : Codec) :
    ix.hasCodec (ix.codecFor asked) = true := by
  rw [LexicalIndex.codecFor]
  split_ifs with own packed
  · exact own
  · exact packed
  · obtain ⟨codec, present⟩ := some_codec
    cases codec with
    | vbyte => exact present
    | bp128 => exact absurd present packed

end Search

end HybridSearch.Engine
