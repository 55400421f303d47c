/-
# Engine.Snippet -- the best window of a passage (src/lexical/snippet.cc)

`selectSnippet` takes the analysed tokens of the passage.  Those whose term is a
query term are its hits; from every hit on, as many hits are taken as fit
(`extend`), and the window with the best score is widened to the limit, pulled in
to whitespace and trimmed.  Offsets are `uint32_t`.
-/
import HybridSearch.Engine.Analyzer
import HybridSearch.Theory.Scan

namespace HybridSearch.Engine

open HybridSearch.Theory

set_option autoImplicit false

structure HighlightSpan where
  start : Nat
  stop : Nat
  deriving DecidableEq, Repr

structure Snippet where
  window : Bytes
  highlights : List HighlightSpan
  isSnippet : Bool
  windowStart : Nat
  deriving DecidableEq, Repr

/-- A token that is a query term, with the term's place in the query. -/
structure Hit where
  start : Nat
  stop : Nat
  term : Nat
  deriving DecidableEq, Repr

def isSpace (c : UInt8) : Bool := c = 0x20 || c = 0x09 || c = 0x0A || c = 0x0D

namespace Snippet

/-- The loop that collects the hits. -/
def hitsOf (toks : List AnalyzedToken) (queryTerms : List Bytes) : List Hit :=
  toks.filterMap fun t => (queryTerms.idxOf? t.term).map fun i => ⟨t.start, t.stop, u32 i⟩

/-- `std::tuple<int, int, int>`. -/
abbrev Score := Int × Int × Int

/-- `a < b`. -/
def Score.lt (a b : Score) : Bool :=
  a.1 < b.1 || (a.1 = b.1 && (a.2.1 < b.2.1 || (a.2.1 = b.2.1 && a.2.2 < b.2.2)))

/-- The inner loop from the hits at `j` on: the distinct terms, and where it ends. -/
def extend (maxChars start : Nat) : List Hit → (Nat → Nat) → Nat → Nat → Nat × Nat
  | [], _, distinct, j => (distinct, j)
  | h :: rest, seen, distinct, j =>
      if sub32 h.stop start ≤ maxChars then
        extend maxChars start rest (Function.update seen h.term (seen h.term + 1))
          (if seen h.term = 0 then distinct + 1 else distinct) (j + 1)
      else (distinct, j)

/-- The hit with a number. -/
def hitAt (hits : List Hit) (i : Nat) : Hit := hits.getD i ⟨0, 0, 0⟩

/-- The window that starts at hit `i`: the distinct terms and the hit it ends before. -/
def windowAt (hits : List Hit) (maxChars i : Nat) : Nat × Nat :=
  let (distinct, j) := extend maxChars (hitAt hits i).start (hits.drop i) (fun _ => 0) 0 i
  (distinct, if j = i then i + 1 else j)

def scoreAt (hits : List Hit) (maxChars i : Nat) : Score :=
  let (distinct, j) := windowAt hits maxChars i
  (distinct, int32 (j - i), -int32 (sub32 (hitAt hits (j - 1)).stop (hitAt hits i).start))

/-- The body of the loop over the hits; `best`, `bi` and `bj`. -/
def bestStep (hits : List Hit) (maxChars : Nat) (acc : Score × Nat × Nat) (i : Nat) :
    Score × Nat × Nat :=
  if Score.lt acc.1 (scoreAt hits maxChars i) then
    (scoreAt hits maxChars i, i, (windowAt hits maxChars i).2)
  else acc

def bestWindow (hits : List Hit) (maxChars : Nat) : Nat × Nat :=
  ((List.range hits.length).foldl (bestStep hits maxChars) ((-1, -1, 0), 0, 1)).2

/-- `s` and `e`: the places the window is to hold. -/
def core (hits : List Hit) (maxChars len : Nat) : Nat × Nat :=
  if hits = [] then (0, 0)
  else
    let (bi, bj) := bestWindow hits maxChars
    let s := (hitAt hits bi).start
    let e := min len (max (hitAt hits (bj - 1)).stop s)
    (s, if maxChars < sub32 e s then u32 (s + maxChars) else e)

/-- Widening to `maxChars` on both sides, and again on the left at the end of the text. -/
def widen (maxChars len s e : Nat) : Nat × Nat :=
  let slack := sub32 maxChars (sub32 e s)
  let growLeft := min s (slack / 2)
  let left := sub32 s growLeft
  let right := min len (u32 (e + sub32 slack growLeft))
  (if sub32 right left < maxChars then if maxChars < right then sub32 right maxChars else 0
    else left, right)

/-- `text[i]`. -/
def byteAt (text : Bytes) (i : Nat) : UInt8 := text.getD i 0

def spaceAt (text : Bytes) (i : Nat) : Bool := isSpace (byteAt text i)

def contAt (text : Bytes) (i : Nat) : Bool := Utf8.isCont (byteAt text i)

/-- The left edge, pulled in to whitespace or else to a character. -/
def pullLeft (text : Bytes) (len s left : Nat) : Nat :=
  if 0 < left then
    let p := Scan.up (fun p => decide (p < s) && !spaceAt text (p - 1)) len left
    let left := if p < s ∨ (p = s ∧ (s = 0 ∨ spaceAt text (s - 1) = true)) then p else left
    Scan.up (fun q => decide (q < len) && contAt text q) len left
  else left

/-- The right edge. -/
def pullRight (text : Bytes) (len e left right : Nat) : Nat :=
  if right < len then
    let p := Scan.down (fun p => decide (e < p) && !spaceAt text p) len right
    let right := if e < p ∨ (p = e ∧ (e = len ∨ spaceAt text e = true)) then p else right
    Scan.down (fun q => decide (left < q) && decide (q < len) && contAt text q) len right
  else right

/-- Whitespace off both ends. -/
def trim (text : Bytes) (len left right : Nat) : Nat × Nat :=
  let left := Scan.up (fun q => decide (q < right) && spaceAt text q) len left
  (left, Scan.down (fun q => decide (left < q) && spaceAt text (q - 1)) len right)

/-- The edges of the window of a text that is longer than the limit. -/
def edges (text : Bytes) (hits : List Hit) (maxChars len : Nat) : Nat × Nat :=
  let (s, e) := core hits maxChars len
  let (left, right) := widen maxChars len s e
  let left := pullLeft text len s left
  let right := pullRight text len e left right
  trim text len left right

end Snippet

open Snippet in
/-- `select_snippet`, after the analysis. -/
def selectSnippet (toks : List AnalyzedToken) (text : Bytes) (queryTerms : List Bytes)
    (maxChars : Nat) : Snippet :=
  let hits := hitsOf toks queryTerms
  let len := u32 text.length
  let cut := decide (maxChars ≠ 0) && decide (maxChars < len)
  let (left, right) := if cut then edges text hits maxChars len else (0, len)
  { window := (text.drop left).take (sub32 right left)
    highlights := (hits.filter fun h => decide (left ≤ h.start) && decide (h.stop ≤ right)).map
      fun h => ⟨sub32 h.start left, sub32 h.stop left⟩
    isSnippet := cut
    windowStart := left }

/-- `select_snippet` with an analyzer. -/
def Analyzer.selectSnippet (a : Analyzer) (text : Bytes) (queryTerms : List Bytes)
    (maxChars : Nat) : Except Fault Snippet := do
  let toks ← a.analyzeWithOffsets text
  return Engine.selectSnippet toks text queryTerms maxChars

end HybridSearch.Engine
