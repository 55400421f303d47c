/-
# Broker.SpellCorrector -- symmetric-delete spelling correction

The vocabulary is indexed by the deletes of the first seven characters of each
word, as a sorted array of (hash, word) pairs.  A misspelling probes the index
with its own deletes, and every word it meets is checked by the real distance.
Words are UTF-16 code units.  `isLetter` is `char.IsLetter`, `hash` is the XxHash64
of a word, and `enumerate` is the order in which a `HashSet` is enumerated.
-/
import Mathlib
import HybridSearch.Theory.BinarySearch

namespace HybridSearch.Broker.SpellCorrector

open HybridSearch.Theory

set_option autoImplicit false

abbrev Word := List (Fin 65536)

def maxDistance : Nat := 2
def prefixLength : Nat := 7

/-! ## Distance -/

section Distance

variable (a b : Word)

/-- Cell `(i, j)` from the two rows above it and the cell to its left. -/
def cell (prev2 prev : List Nat) (i j left : Nat) : Nat :=
  let cost := if a[i - 1]? = b[j - 1]? then 0 else 1
  let v := min (min (prev.getD j 0 + 1) (left + 1)) (prev.getD (j - 1) 0 + cost)
  if i > 1 ∧ j > 1 ∧ a[i - 1]? = b[j - 2]? ∧ a[i - 2]? = b[j - 1]? then
    min v (prev2.getD (j - 2) 0 + 1)
  else v

/-- The cells from `j` on, `n` of them. -/
def cellsFrom (prev2 prev : List Nat) (i : Nat) : Nat → Nat → Nat → List Nat
  | 0, _, _ => []
  | n + 1, j, left =>
      let v := cell a b prev2 prev i j left
      v :: cellsFrom prev2 prev i n (j + 1) v

def row (prev2 prev : List Nat) (i : Nat) : List Nat :=
  i :: cellsFrom a b prev2 prev i b.length 1 i

def rowsFrom (max : Nat) : Nat → Nat → List Nat → List Nat → Nat
  | 0, _, _, prev => prev.getD b.length 0
  | n + 1, i, prev2, prev =>
      let cur := row a b prev2 prev i
      let rowMin := cur.foldl min i
      if rowMin > max then max + 1 else rowsFrom max n (i + 1) prev cur

/-- Optimal string alignment distance, with an early exit above `max`. -/
def osaDistance (max : Nat) : Nat :=
  if max < a.length - b.length ∨ max < b.length - a.length then max + 1
  else
    rowsFrom a b max a.length 1 (List.replicate (b.length + 1) 0) (List.range (b.length + 1))

end Distance

/-! ## The index -/

def isCorrectable (isLetter : Fin 65536 → Bool) (w : Word) : Bool :=
  if w.length < 3 ∨ w.length > 30 then false else w.all isLetter

/-- Add the deletes of `s` to a set. -/
def addDeletes : Nat → Word → List Word → List Word
  | 0, _, into => into
  | depth + 1, s, into =>
      if s.length ≤ 1 then into
      else
        (List.range s.length).foldl (fun into i =>
          let d := s.eraseIdx i
          if d ∈ into then into else addDeletes depth d (into ++ [d])) into

def keyOf (w : Word) : Word := if w.length > prefixLength then w.take prefixLength else w

def deletesOf (w : Word) : List Word := addDeletes maxDistance (keyOf w) [keyOf w]

structure SpellCorrector where
  words : List Word
  freq : List Int
  /-- `_deleteHash` and `_deleteWord`. -/
  pairs : List (Nat × Nat)

section Correct

variable (isLetter : Fin 65536 → Bool) (hash : Word → Nat) (enumerate : List Word → List Word)

def comparePairs (a b : Nat × Nat) : Bool := if a.1 ≠ b.1 then decide (a.1 ≤ b.1) else decide (a.2 ≤ b.2)

/-- The words that are correction targets. -/
def kept (wordCounts : List (Word × Int)) (minFrequency : Int) : List (Word × Int) :=
  wordCounts.filter fun e => !(decide (e.2 < minFrequency) || !isCorrectable isLetter e.1)

def build (wordCounts : List (Word × Int)) (minFrequency : Int) : SpellCorrector :=
  let kept := kept isLetter wordCounts minFrequency
  let words := kept.map Prod.fst
  let pairs := words.zipIdx.flatMap fun w => (enumerate (deletesOf w.1)).map fun d => (hash d, w.2)
  ⟨words, kept.map Prod.snd, pairs.mergeSort comparePairs⟩

namespace SpellCorrector

variable (sc : SpellCorrector)

def wordAt (w : Nat) : Word := sc.words.getD w []

def freqAt (w : Nat) : Int := sc.freq.getD w 0

/-- The words indexed under a hash. -/
def candidates (h : Nat) : List Nat :=
  let start := BinarySearch.lowerBound (fun i => decide ((sc.pairs.getD i (0, 0)).1 < h))
    sc.pairs.length 0 sc.pairs.length
  ((sc.pairs.drop start).takeWhile fun p => p.1 = h).map Prod.snd

/-- The words met, and the best of them with its distance. -/
structure Search where
  seen : List Nat
  best : Option (Nat × Nat)

/-- `d` at word `w` beats the best so far. -/
def beats (d w : Nat) : Option (Nat × Nat) → Prop
  | none => True
  | some (bestWord, bestDist) =>
      d < bestDist ∨ d = bestDist ∧ (sc.freqAt w > sc.freqAt bestWord ∨
        sc.freqAt w = sc.freqAt bestWord ∧ sc.wordAt w < sc.wordAt bestWord)

instance (d w : Nat) (best : Option (Nat × Nat)) : Decidable (sc.beats d w best) := by
  cases best <;> unfold beats <;> infer_instance

def consider (word : Word) (st : Search) (w : Nat) : Search :=
  if w ∈ st.seen then st
  else
    let cand := sc.wordAt w
    if maxDistance < cand.length - word.length ∨ maxDistance < word.length - cand.length then
      { st with seen := w :: st.seen }
    else
      let d := osaDistance word cand maxDistance
      if d > maxDistance then { st with seen := w :: st.seen }
      else if sc.beats d w st.best then ⟨w :: st.seen, some (w, d)⟩
      else { st with seen := w :: st.seen }

def correctWord (word : Word) : Option Word :=
  if !isCorrectable isLetter word ∨ word ∈ sc.words then none
  else
    let probes := enumerate (deletesOf word)
    let st := probes.foldl (fun st p => (sc.candidates (hash p)).foldl (sc.consider word) st) ⟨[], none⟩
    st.best.map fun b => sc.wordAt b.1

end SpellCorrector

end Correct

end HybridSearch.Broker.SpellCorrector
