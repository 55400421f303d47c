/-
# Engine.Query -- from raw terms to scored clauses (search.cc)

`LexicalIndex::search` turns the raw terms into one clause per distinct term,
looks each term up, and gives it its BM25 weight and its score bound.  The
weights are fixed here; how the postings of the clauses are walked is up to the
algorithm.
-/
import HybridSearch.Engine.LexicalIndex

namespace HybridSearch.Engine

set_option autoImplicit false

inductive Algorithm
  | exhaustive
  | daat
  | maxScore
  | wand
  | bmw
  deriving DecidableEq, Repr

structure SearchOptions where
  k : Nat
  algorithm : Algorithm
  model : Model
  codec : Codec
  k1 : ℚ
  b : ℚ

structure QTerm where
  id : Nat
  weight : ℚ
  /-- Term-level upper bound on any contribution. -/
  ub : ℚ

structure Query where
  /-- Canonical order: by first occurrence in the raw terms. -/
  terms : List QTerm
  sc : Scorer

/-- One more occurrence of a term among the clauses. -/
def addClause (uniq : List (Bytes × Nat)) (t : Bytes) : List (Bytes × Nat) :=
  if uniq.any (fun u => u.1 = t) then
    uniq.map fun u => if u.1 = t then (u.1, u32 (u.2 + 1)) else u
  else uniq ++ [(t, 1)]

/-- The distinct terms, in order of first occurrence, with their counts. -/
def clauses (rawTerms : List Bytes) : List (Bytes × Nat) := rawTerms.foldl addClause []

namespace LexicalIndex

/-- The codec a search runs on: the asked one, or whichever the index has. -/
def codecFor (ix : LexicalIndex) (asked : Codec) : Codec :=
  if ix.hasCodec asked then asked else if ix.hasCodec .bp128 then .bp128 else .vbyte

def scorer (ix : LexicalIndex) (opt : SearchOptions) : Scorer where
  bn := ⟨opt.model, opt.k1, opt.b, ix.avgdl⟩
  dl d := ix.doclen.getD d 0
  norm d := ix.norms.getD d 0
  exactBounds := decide (opt.k1 = ix.buildK1 ∧ opt.b = ix.buildB)

/-- The clause of one distinct term; `none` when the index does not have it. -/
def clause (P : Platform) (ix : LexicalIndex) (opt : SearchOptions) (u : Bytes × Nat) :
    Except Fault (Option QTerm) := do
  match ← ix.termId u.1 with
  | none => pure none
  | some id =>
      let t ← at? ix.terms id
      let df ← ix.idfDf id
      let weight := bm25Weight opt.model u.2 (P.bm25Idf df ix.idfN) opt.k1
      pure (some ⟨id, weight, (ix.scorer opt).bound weight t.bound⟩)

def query (P : Platform) (ix : LexicalIndex) (opt : SearchOptions) (rawTerms : List Bytes) :
    Except Fault Query := do
  let terms ← (clauses rawTerms).mapM (ix.clause P opt)
  pure ⟨terms.reduceOption, ix.scorer opt⟩

end LexicalIndex

end HybridSearch.Engine
