/-
# Broker.Fusion -- rank and score fusion of the broker

The broker fuses a lexical and a dense candidate list by reciprocal rank or by a
weighted sum of normalised scores.  Scores live in an ordered field and `fl` rounds
every result, `Rounding.exact` for exact arithmetic; the square root of the z-score
is a parameter.  The `int` of `k + rank` is kept: it wraps at `2 ^ 31`, and nothing
checks it.
-/
import Mathlib.Algebra.Order.Field.Basic
import Mathlib.Algebra.Order.BigOperators.Group.List
import HybridSearch.Theory.Dict
import HybridSearch.Theory.Rounding

namespace HybridSearch.Broker.Fusion

open HybridSearch.Theory

set_option autoImplicit false

variable (K : Type) [Field K] [LinearOrder K]

/-- `float.MaxValue` and `double.MaxValue`. -/
def floatMax : K := 2 ^ 128 - 2 ^ 104
def doubleMax : K := 2 ^ 1024 - 2 ^ 971

structure ScoredDoc where
  docId : Nat
  score : K
  finite : -floatMax K ≤ score ∧ score ≤ floatMax K

/-- A fused candidate: the document and its fused score. -/
abbrev FusedDoc := Nat × K

inductive FusionMethod
  | rrf
  | weighted
  deriving DecidableEq, Repr

inductive ScoreNormalization
  | minMax
  | zScore
  deriving DecidableEq, Repr

structure FusionOptions where
  method : FusionMethod := .rrf
  rrfK : Int := 60
  alpha : K
  normalization : ScoreNormalization := .minMax

variable {K} (fl : Rounding K)

/-! ## The ranking order -/

def compareRanking (scoreA : K) (idA : Nat) (scoreB : K) (idB : Nat) : Ordering :=
  match compare scoreB scoreA with
  | .eq => compare idA idB
  | c => c

def sortRanking (docs : List (FusedDoc K)) : List (FusedDoc K) :=
  docs.mergeSort fun a b => (compareRanking a.2 a.1 b.2 b.1).isLE

/-! ## Reciprocal rank -/

/-- Addition of two `int`s, which is unchecked. -/
def add32 (a b : Int) : Int := (a + b).bmod (2 ^ 32)

/-- The documents of a list at their first occurrence. -/
def firstSeen : List Nat → List (ScoredDoc K) → List (ScoredDoc K)
  | _, [] => []
  | seen, d :: rest =>
      if d.docId ∈ seen then firstSeen seen rest else d :: firstSeen (d.docId :: seen) rest

def addRanks (k : Int) : Int → List (FusedDoc K) → List (ScoredDoc K) → List (FusedDoc K)
  | _, acc, [] => acc
  | rank, acc, d :: rest =>
      addRanks k (add32 rank 1)
        (Dict.assign acc d.docId
          (fl ((acc.lookup d.docId).getD 0 + fl (1 / (add32 k (add32 rank 1) : Int)))))
        rest

def reciprocalRank (lists : List (List (ScoredDoc K))) (k : Int) :
    Except String (List (FusedDoc K)) :=
  if k < 0 then .error "k"
  else .ok (sortRanking (lists.foldl (fun acc list => addRanks fl k 0 acc (firstSeen [] list)) []))

/-! ## Weighted scores -/

def minMax (scores : List K) : List K :=
  let min := scores.foldl min (doubleMax K)
  let max := scores.foldl max (-doubleMax K)
  let range := fl (max - min)
  scores.map fun s => if range > 0 then fl (fl (s - min) / range) else 1

def zScore (sqrt : K → K) (scores : List K) : List K :=
  let mean : K := fl (scores.foldl (fun mean s => fl (mean + s)) 0 / scores.length)
  let var : K := scores.foldl (fun var s => fl (var + fl (fl (s - mean) * fl (s - mean)))) 0
  let sd : K := sqrt (fl (var / scores.length))
  scores.map fun s => if sd > 0 then fl (fl (s - mean) / sd) else 0

def normalize (sqrt : K → K) (list : List (ScoredDoc K)) (n : ScoreNormalization) :
    List (FusedDoc K) :=
  let firsts := firstSeen [] list
  let scores := firsts.map ScoredDoc.score
  let norm := match n with
    | .minMax => minMax fl scores
    | .zScore => zScore fl sqrt scores
  Dict.fill [] ((firsts.map ScoredDoc.docId).zip norm)

/-- The least of the values, and 0 of none. -/
def floorOf (values : List K) : K := values.min?.getD 0

def weighted (sqrt : K → K) (lexical dense : List (ScoredDoc K)) (alpha : K)
    (normalization : ScoreNormalization) : Except String (List (FusedDoc K)) :=
  if alpha < 0 ∨ alpha > 1 then .error "alpha must be in [0, 1]"
  else
    let lex := normalize fl sqrt lexical normalization
    let den := normalize fl sqrt dense normalization
    let lexFloor := floorOf (lex.map Prod.snd)
    let denFloor := floorOf (den.map Prod.snd)
    .ok (sortRanking (Dict.fillNew
      (fun id => fl (fl (alpha * (den.lookup id).getD denFloor) +
        fl (fl (1 - alpha) * (lex.lookup id).getD lexFloor)))
      [] (Dict.keys lex ++ Dict.keys den)))

def fuse (sqrt : K → K) (lexical dense : List (ScoredDoc K)) (options : FusionOptions K) :
    Except String (List (FusedDoc K)) :=
  match options.method with
  | .rrf => reciprocalRank fl [lexical, dense] options.rrfK
  | .weighted => weighted fl sqrt lexical dense options.alpha options.normalization

end HybridSearch.Broker.Fusion
