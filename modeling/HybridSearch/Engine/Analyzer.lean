/-
# Engine.Analyzer -- the analysis chain (src/lexical/analyzer.cc)

A token of the tokenizer loses a possessive, is put in lower case, dropped if it
is a stop word, and stemmed.  The lower-case table of `unicode_data.inc` is data
of the analyzer.

`stemInPlace` runs the stemmer over the bytes of an ASCII word, and over UTF-16
code units otherwise.
-/
import HybridSearch.Engine.Porter
import HybridSearch.Engine.Tokenizer

namespace HybridSearch.Engine

set_option autoImplicit false

/-! ## Stemming -/

/-- The code units `stem_in_place` makes of a code point. -/
def utf16Units (cp : Nat) : List Nat :=
  if 0x10000 ≤ cp then
    let cp := cp - 0x10000
    [0xD800 + (cp >>> 10), 0xDC00 + (cp &&& 0x3FF)]
  else [cp]

/-- The second loop of `stem_in_place`: code units written as UTF-8. -/
def utf16Bytes : List Nat → Bytes
  | [] => []
  | [cp] => utf8Append cp
  | cp :: next :: rest =>
      if 0xD800 ≤ cp ∧ cp ≤ 0xDBFF ∧ 0xDC00 ≤ next ∧ next ≤ 0xDFFF then
        utf8Append (0x10000 + ((cp - 0xD800) <<< 10) + (next - 0xDC00)) ++ utf16Bytes rest
      else utf8Append cp ++ utf16Bytes (next :: rest)

/-- The ASCII branch of `stem_in_place`, over the bytes. -/
def stemAscii (j : Int) (t : Bytes) : Except Fault Bytes := do
  let (b, n) ← PorterStemmer.stem j (t.map UInt8.toNat)
  -- `resize` to more than the size would append zeros
  if b.length < n then .error .undefined else return (b.take n).map UInt8.ofNat

/-- The other branch, over UTF-16 code units. -/
def stemUtf16 (j : Int) (t : Bytes) : Except Fault Bytes := do
  let u16 := (codePoints t).flatMap fun cp => utf16Units cp.1
  let (b, n) ← PorterStemmer.stem j u16
  if b.length < n then .error .undefined else return utf16Bytes (b.take n)

/-- `stem_in_place`; `j` is what the last word left in the stemmer. -/
def stemInPlace (j : Int) (t : Bytes) : Except Fault Bytes :=
  if t.all (· < 0x80) then stemAscii j t else stemUtf16 j t

/-! ## The chain -/

/-- A pair of the lower-case table. -/
structure LowerPair where
  from_ : Nat
  to_ : Nat
  deriving DecidableEq, Repr

/-- `uni::to_lower`. -/
def toLower (pairs : List LowerPair) (cp : Nat) : Nat :=
  if cp < 128 then if 'A'.toNat ≤ cp ∧ cp ≤ 'Z'.toNat then cp + 32 else cp
  else
    match pairs.find? fun p => cp ≤ p.from_ with
    | some p => if p.from_ = cp then p.to_ else cp
    | none => cp

/-- `kStopWords`. -/
def kStopWords : List Bytes :=
  [['a'], ['a', 'n'], ['a', 'n', 'd'], ['a', 'r', 'e'], ['a', 's'], ['a', 't'], ['b', 'e'],
    ['b', 'u', 't'], ['b', 'y'], ['f', 'o', 'r'], ['i', 'f'], ['i', 'n'], ['i', 'n', 't', 'o'],
    ['i', 's'], ['i', 't'], ['n', 'o'], ['n', 'o', 't'], ['o', 'f'], ['o', 'n'], ['o', 'r'],
    ['s', 'u', 'c', 'h'], ['t', 'h', 'a', 't'], ['t', 'h', 'e'], ['t', 'h', 'e', 'i', 'r'],
    ['t', 'h', 'e', 'n'], ['t', 'h', 'e', 'r', 'e'], ['t', 'h', 'e', 's', 'e'],
    ['t', 'h', 'e', 'y'], ['t', 'h', 'i', 's'], ['t', 'o'], ['w', 'a', 's'],
    ['w', 'i', 'l', 'l'], ['w', 'i', 't', 'h']].map (·.map fun c => UInt8.ofNat c.toNat)

/-- `kApos1`, `kApos2`, `kApos3`. -/
def kApos : List Bytes := [[0x27], [0xE2, 0x80, 0x99], [0xEF, 0xBC, 0x87]]

/-- `strip_possessive`. -/
def stripPossessive (t : Bytes) : Bytes :=
  match t.getLast? with
  | none => t
  | some last =>
      if last ≠ 0x73 ∧ last ≠ 0x53 then t
      else
        match kApos.find? fun a => a.isSuffixOf t.dropLast with
        | some a => t.dropLast.take (t.dropLast.length - a.length)
        | none => t

/-- `lowercase_into`. -/
def lowercaseInto (pairs : List LowerPair) (s : Bytes) : Bytes :=
  (codePoints s).flatMap fun cp => utf8Append (toLower pairs cp.1)

/-- `Analyzer::is_stopword`. -/
def isStopword (w : Bytes) : Bool := if 5 < w.length then false else kStopWords.contains w

structure AnalyzedToken where
  term : Bytes
  start : Nat
  stop : Nat
  deriving DecidableEq, Repr

structure Analyzer where
  tokenizer : StandardTokenizer
  lowerPairs : List LowerPair

namespace Analyzer

variable (a : Analyzer)

/-- The body of the loop of `run_chain`, for one token. -/
def chainStep (text : Bytes) (out : List AnalyzedToken) (rt : RawToken) :
    Except Fault (List AnalyzedToken) :=
  if text.length < rt.start then .error (.thrown "basic_string_view::substr")
  else do
    let tok := stripPossessive ((text.drop rt.start).take (sub32 rt.stop rt.start))
    let buf := lowercaseInto a.lowerPairs tok
    if isStopword buf then return out
    else do
      -- whatever the token before left in the stemmer, the stem is the same
      let buf ← stemInPlace 0 buf
      return out ++ [⟨buf, rt.start, rt.stop⟩]

/-- `analyze_with_offsets`. -/
def analyzeWithOffsets (text : Bytes) : Except Fault (List AnalyzedToken) :=
  (a.tokenizer.tokenize text).foldlM (a.chainStep text) []

end Analyzer

end HybridSearch.Engine
