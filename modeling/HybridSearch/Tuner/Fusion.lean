/-
# Tuner.Fusion -- the fusion of the offline tuner

`rrf` and `weighted` fuse with dictionaries, and are the reference of the
parameter sweeps.  `rrfFast` and `weightedFast` fuse with arrays: `prepare`
collects the candidates of a query once, in the order of their ids, and a stable
sort of the positions then breaks ties by id.

A Python set is iterated in any order, which is the parameter `setOrder`.
-/
import Mathlib.Algebra.Order.Field.Basic
import Mathlib.Data.Prod.Lex
import Mathlib.Data.String.Basic
import HybridSearch.Theory.Dict
import HybridSearch.Theory.Ranking

namespace HybridSearch.Tuner

open HybridSearch.Theory

set_option autoImplicit false

variable {K : Type} [Field K] [LinearOrder K]

abbrev Ranking (K : Type) := List (String × K)

inductive Normalisation
  | minmax
  | zscore
  deriving DecidableEq, Repr

/-! ## core -/

/-- `str.isdigit`, for ASCII ids. -/
def isDigit (d : String) : Bool := !d.toList.isEmpty && d.toList.all Char.isDigit

/-- Numeric order for decimal ids, string order otherwise, decimal ids first. -/
def docidKey (d : String) : ℕ ×ₗ ℕ ×ₗ String :=
  if isDigit d then toLex (0, toLex (d.toNat?.getD 0, "")) else toLex (1, toLex (0, d))

def truncate (r : Ranking K) : Option Int → Except String (Ranking K)
  | none => .ok r
  | some depth =>
      if depth < 1 then .error "depth must be >= 1 or None" else .ok (r.take depth.toNat)

def checkUnique : List String → Ranking K → Except String Unit
  | _, [] => .ok ()
  | seen, (d, _) :: rest =>
      if d ∈ seen then .error s!"duplicate docid {d} in a ranking" else checkUnique (d :: seen) rest

def cutOut (out : Ranking K) : Option Nat → Ranking K
  | none => out
  | some outK => out.take outK

def sortFused (scores : Ranking K) (outK : Option Nat) : Ranking K :=
  cutOut (scores.mergeSort fun a b =>
    decide ((toLex (-a.2, docidKey a.1) : K ×ₗ (ℕ ×ₗ ℕ ×ₗ String)) ≤ toLex (-b.2, docidKey b.1))) outK

/-- The inner loop of `rrf`: the ranks count from 1. -/
def addRanking (k : K) (scores r : Ranking K) : Ranking K :=
  (r.zipIdx 1).foldl (fun scores entry =>
    Dict.assign scores entry.1.1 ((scores.lookup entry.1.1).getD 0 + 1 / (k + entry.2))) scores

def rrf (rankings : List (Ranking K)) (k : K) (depth : Option Int) (outK : Option Nat) :
    Except String (Ranking K) := do
  if k < 0 then throw "RRF k must be >= 0"
  let scores ← rankings.foldlM (fun scores r => do
    let r ← truncate r depth
    checkUnique [] r
    pure (addRanking k scores r)) []
  pure (sortFused scores outK)

def normalise (sqrt : K → K) (s : List K) : Normalisation → List K
  | .minmax =>
      let lo := s.min?.getD 0
      let hi := s.max?.getD 0
      if hi - lo = 0 then List.replicate s.length 1 else s.map fun x => (x - lo) / (hi - lo)
  | .zscore =>
      let mu := s.sum / s.length
      let sd := sqrt ((s.map fun x => (x - mu) ^ 2).sum / s.length)
      if sd = 0 then List.replicate s.length 0 else s.map fun x => (x - mu) / sd

/-- One retriever's part of the weighted sum. -/
structure Part (K : Type) where
  scores : Ranking K
  floor : K
  weight : K

def part (sqrt : K → K) (norm : Normalisation) (depth : Option Int) (r : Ranking K) (w : K) :
    Except String (Part K) := do
  let r ← truncate r depth
  checkUnique [] r
  let ns := normalise sqrt (r.map Prod.snd) norm
  pure ⟨Dict.fill [] ((r.map Prod.fst).zip ns), ns.min?.getD 0, w⟩

def weighted (sqrt : K → K) (setOrder : List String → List String) (lex dense : Ranking K)
    (alpha : K) (norm : Normalisation) (depth : Option Int) (outK : Option Nat) :
    Except String (Ranking K) := do
  if ¬ (0 ≤ alpha ∧ alpha ≤ 1) then throw "alpha must be in [0, 1]"
  let lexPart ← part sqrt norm depth lex (1 - alpha)
  let densePart ← part sqrt norm depth dense alpha
  let parts := [lexPart, densePart]
  let docs := setOrder (parts.flatMap fun p => Dict.keys p.scores)
  let scores := docs.map fun d =>
    (d, (parts.map fun p => p.weight * (p.scores.lookup d).getD p.floor).sum)
  pure (sortFused (Dict.fill [] scores) outK)

/-! ## fast -/

/-- The candidates of a query in id order, with their ranks (`none` is the infinite rank of an
absent document) and their normalised scores, the floor filled in. -/
structure QueryCands (K : Type) where
  docs : List String
  lexRank : List (Option Nat)
  denseRank : List (Option Nat)
  norm : Normalisation → List K × List K

/-- An array of `init` with the value of each entry at the position of its document. -/
def scatter {β : Type} (pos : List (String × Nat)) (n : Nat) (init : β) (entries : List (String × β)) :
    List β :=
  entries.foldl (fun a entry => a.set ((pos.lookup entry.1).getD 0) entry.2) (List.replicate n init)

def rankArray (pos : List (String × Nat)) (n : Nat) (r : Ranking K) : List (Option Nat) :=
  scatter pos n none ((r.zipIdx 1).map fun entry => (entry.1.1, some entry.2))

def normArray (sqrt : K → K) (pos : List (String × Nat)) (n : Nat) (m : Normalisation)
    (r : Ranking K) : List K :=
  let ns := normalise sqrt (r.map Prod.snd) m
  scatter pos n (ns.min?.getD 0) ((r.map Prod.fst).zip ns)

def prepare (sqrt : K → K) (setOrder : List String → List String) (lex dense : Ranking K)
    (depth : Option Int) : Except String (QueryCands K) := do
  let lex ← truncate lex depth
  let dense ← truncate dense depth
  let docs := (setOrder (lex.map Prod.fst ++ dense.map Prod.fst)).mergeSort fun a b =>
    decide (docidKey a ≤ docidKey b)
  let pos := Dict.fill [] docs.zipIdx
  let n := docs.length
  pure ⟨docs, rankArray pos n lex, rankArray pos n dense,
    fun m => (normArray sqrt pos n m lex, normArray sqrt pos n m dense)⟩

def order (qc : QueryCands K) (score : List K) (outK : Option Nat) : Ranking K :=
  let idx := Ranking.argsort score.length fun i j => decide (-score.getD i 0 ≤ -score.getD j 0)
  (match outK with
    | none => idx
    | some outK => idx.take outK).map fun i => (qc.docs.getD i "", score.getD i 0)

def reciprocals (k : K) (rank : List (Option Nat)) : List K :=
  rank.map fun
    | none => 0
    | some rank => 1 / (k + rank)

def rrfScores (qc : QueryCands K) (k : K) : List K :=
  List.zipWith (· + ·) (reciprocals k qc.lexRank) (reciprocals k qc.denseRank)

def weightedScores (qc : QueryCands K) (alpha : K) (norm : Normalisation) : List K :=
  List.zipWith (fun nl nd => (1 - alpha) * nl + alpha * nd) (qc.norm norm).1 (qc.norm norm).2

def rrfFast (qc : QueryCands K) (k : K) (outK : Option Nat) : Ranking K :=
  order qc (rrfScores qc k) outK

def weightedFast (qc : QueryCands K) (alpha : K) (norm : Normalisation) (outK : Option Nat) :
    Ranking K :=
  order qc (weightedScores qc alpha norm) outK

end HybridSearch.Tuner
