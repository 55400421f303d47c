/-
# Engine.Porter -- the Porter stemmer (src/lexical/porter.hpp)

The stemmer works in place on code units: `k` is the last unit of the word as it
is now and `j` the end of the stem before the suffix that `ends` found last.
Both are `int`.  Every access of the buffer is checked, so a result says that no
index was out of range.

A suffix is a list of ASCII characters; `Unit(s[i])` is its code.  The rules of
steps 3, 4 and 5 are tables over the unit the source switches on (`caseOf`).
-/
import HybridSearch.Engine.Machine

namespace HybridSearch.Engine

set_option autoImplicit false

/-- `int(x)`. -/
def int32 (x : Nat) : Int :=
  if x % 2 ^ 32 < 2 ^ 31 then (x % 2 ^ 32 : Nat) else (x % 2 ^ 32 : Nat) - 2 ^ 32

theorem int32_of_lt {x : Nat} (short : x < 2 ^ 31) : int32 x = x := by
  rw [int32, Nat.mod_eq_of_lt (by omega), if_pos short]

structure PorterStemmer where
  b : List Nat
  j : Int
  k : Int
  deriving DecidableEq, Repr

namespace PorterStemmer

/-- `b[i]`. -/
def unitAt (b : List Nat) (i : Int) : Except Fault Nat :=
  if i < 0 then .error .undefined else at? b i.toNat

def isVowel (u : Nat) : Bool :=
  u = 'a'.toNat || u = 'e'.toNat || u = 'i'.toNat || u = 'o'.toNat || u = 'u'.toNat

/-- `cons`: the unit is a consonant; a `y` is one where the unit before it is none. -/
def cons (b : List Nat) : Nat → Except Fault Bool
  | 0 => do
      let u ← at? b 0
      return !isVowel u
  | i + 1 => do
      let u ← at? b (i + 1)
      if isVowel u then return false
      else if u = 'y'.toNat then do
        let before ← cons b i
        return !before
      else return true

/-- `m`, with so many places left: the runs of consonants from place `i` on, where
`vowels` says which of the inner loops is running. -/
def mFrom (b : List Nat) : Nat → Nat → Bool → Nat → Except Fault Nat
  | 0, _, _, n => .ok n
  | left + 1, i, vowels, n => do
      let c ← cons b i
      if vowels then mFrom b left (i + 1) c n
      else if c then mFrom b left (i + 1) true (n + 1)
      else mFrom b left (i + 1) false n

def vowelFrom (b : List Nat) : Nat → Nat → Except Fault Bool
  | 0, _ => .ok false
  | left + 1, i => do
      let c ← cons b i
      if c then vowelFrom b left (i + 1) else return true

/-- The comparison loop of `ends`. -/
def endsAt (b : List Nat) : List Char → Nat → Except Fault Bool
  | [], _ => .ok true
  | c :: s, i => do
      let u ← at? b i
      if u = c.toNat then endsAt b s (i + 1) else return false

/-- The loop of `setto`. -/
def write : List Char → Int → List Nat → Except Fault (List Nat)
  | [], _, b => .ok b
  | c :: s, o, b =>
      if 0 ≤ o ∧ o < b.length then write s (o + 1) (b.set o.toNat c.toNat)
      else .error .undefined

variable (p : PorterStemmer)

def consAt (i : Int) : Except Fault Bool :=
  if i < 0 then .error .undefined else cons p.b i.toNat

/-- `m`: the number of consonant sequences between the start and `j`. -/
def m : Except Fault Nat := mFrom p.b (p.j + 1).toNat 0 true 0

def vowelinstem : Except Fault Bool := vowelFrom p.b (p.j + 1).toNat 0

def doublec (jj : Int) : Except Fault Bool :=
  if jj < 1 then return false
  else do
    let u ← unitAt p.b jj
    let v ← unitAt p.b (jj - 1)
    if u ≠ v then return false
    else p.consAt jj

def cvc (i : Int) : Except Fault Bool :=
  if i < 2 then return false
  else do
    let last ← p.consAt i
    if !last then return false
    else do
      let middle ← p.consAt (i - 1)
      if middle then return false
      else do
        let first ← p.consAt (i - 2)
        if !first then return false
        else do
          let ch ← unitAt p.b i
          return !(ch = 'w'.toNat || ch = 'x'.toNat || ch = 'y'.toNat)

/-- `ends`: whether the word ends in `s`; if so, `j` is where the rest ends. -/
def ends (s : List Char) : Except Fault (Bool × PorterStemmer) :=
  let o := p.k - s.length + 1
  if o < 0 then return (false, p)
  else do
    let found ← endsAt p.b s o.toNat
    return (found, if found then { p with j := p.k - s.length } else p)

def setto (s : List Char) : Except Fault PorterStemmer := do
  let b ← write s (p.j + 1) p.b
  return { p with b, k := p.j + s.length }

def r (s : List Char) : Except Fault PorterStemmer := do
  let n ← p.m
  if 0 < n then p.setto s else return p

/-- The plurals at the head of `step1`. -/
def plurals : Except Fault PorterStemmer := do
  let u ← unitAt p.b p.k
  if u ≠ 's'.toNat then return p
  else do
    let (sses, p) ← p.ends ['s', 's', 'e', 's']
    if sses then return { p with k := p.k - 2 }
    else do
      let (ies, p) ← p.ends ['i', 'e', 's']
      if ies then p.setto ['i']
      else do
        let v ← unitAt p.b (p.k - 1)
        if v ≠ 's'.toNat then return { p with k := p.k - 1 } else return p

/-- The end of `step1`, after a past tense or a participle was cut off. -/
def restore : Except Fault PorterStemmer := do
  let (found, p) ← p.ends ['a', 't']
  if found then p.setto ['a', 't', 'e']
  else do
    let (found, p) ← p.ends ['b', 'l']
    if found then p.setto ['b', 'l', 'e']
    else do
      let (found, p) ← p.ends ['i', 'z']
      if found then p.setto ['i', 'z', 'e']
      else do
        let double ← p.doublec p.k
        if double then do
          let ch ← unitAt p.b p.k
          if ch = 'l'.toNat || ch = 's'.toNat || ch = 'z'.toNat then return p
          else return { p with k := p.k - 1 }
        else do
          let n ← p.m
          if n = 1 then do
            let short ← p.cvc p.k
            if short then p.setto ['e'] else return p
          else return p

def step1 : Except Fault PorterStemmer := do
  let p ← p.plurals
  let (eed, p) ← p.ends ['e', 'e', 'd']
  if eed then do
    let n ← p.m
    if 0 < n then return { p with k := p.k - 1 } else return p
  else do
    let (ed, p) ← p.ends ['e', 'd']
    let (found, p) ← if ed then pure (true, p) else p.ends ['i', 'n', 'g']
    if found then do
      let vowel ← p.vowelinstem
      if vowel then restore { p with k := p.j } else return p
    else return p

def step2 : Except Fault PorterStemmer := do
  let (y, p) ← p.ends ['y']
  if y then do
    let vowel ← p.vowelinstem
    if vowel then do
      let b ← write ['i'] p.k p.b
      return { p with b }
    else return p
  else return p

/-- A suffix and what replaces it. -/
abbrev Rule := List Char × List Char

/-- `switch`: what the case of a unit says; the default says nothing. -/
def caseOf {α : Type} (cases : List (Char × List α)) (u : Nat) : List α :=
  match cases.find? fun entry => entry.1.toNat = u with
  | some entry => entry.2
  | none => []

/-- A run of `if (ends(..)) { r(..); break; }`. -/
def replace : List Rule → PorterStemmer → Except Fault PorterStemmer
  | [], p => return p
  | rule :: rest, p => do
      let (found, p) ← p.ends rule.1
      if found then p.r rule.2 else replace rest p

/-- The cases of `step3`. -/
def step3Cases : List (Char × List Rule) :=
  [('a', [(['a', 't', 'i', 'o', 'n', 'a', 'l'], ['a', 't', 'e']),
      (['t', 'i', 'o', 'n', 'a', 'l'], ['t', 'i', 'o', 'n'])]),
    ('c', [(['e', 'n', 'c', 'i'], ['e', 'n', 'c', 'e']),
      (['a', 'n', 'c', 'i'], ['a', 'n', 'c', 'e'])]),
    ('e', [(['i', 'z', 'e', 'r'], ['i', 'z', 'e'])]),
    ('l', [(['b', 'l', 'i'], ['b', 'l', 'e']), (['a', 'l', 'l', 'i'], ['a', 'l']),
      (['e', 'n', 't', 'l', 'i'], ['e', 'n', 't']), (['e', 'l', 'i'], ['e']),
      (['o', 'u', 's', 'l', 'i'], ['o', 'u', 's'])]),
    ('o', [(['i', 'z', 'a', 't', 'i', 'o', 'n'], ['i', 'z', 'e']),
      (['a', 't', 'i', 'o', 'n'], ['a', 't', 'e']),
      (['a', 't', 'o', 'r'], ['a', 't', 'e'])]),
    ('s', [(['a', 'l', 'i', 's', 'm'], ['a', 'l']),
      (['i', 'v', 'e', 'n', 'e', 's', 's'], ['i', 'v', 'e']),
      (['f', 'u', 'l', 'n', 'e', 's', 's'], ['f', 'u', 'l']),
      (['o', 'u', 's', 'n', 'e', 's', 's'], ['o', 'u', 's'])]),
    ('t', [(['a', 'l', 'i', 't', 'i'], ['a', 'l']),
      (['i', 'v', 'i', 't', 'i'], ['i', 'v', 'e']),
      (['b', 'i', 'l', 'i', 't', 'i'], ['b', 'l', 'e'])]),
    ('g', [(['l', 'o', 'g', 'i'], ['l', 'o', 'g'])])]

def step3 : Except Fault PorterStemmer :=
  if p.k = 0 then return p
  else do
    let u ← unitAt p.b (p.k - 1)
    p.replace (caseOf step3Cases u)

/-- The cases of `step4`. -/
def step4Cases : List (Char × List Rule) :=
  [('e', [(['i', 'c', 'a', 't', 'e'], ['i', 'c']), (['a', 't', 'i', 'v', 'e'], []),
      (['a', 'l', 'i', 'z', 'e'], ['a', 'l'])]),
    ('i', [(['i', 'c', 'i', 't', 'i'], ['i', 'c'])]),
    ('l', [(['i', 'c', 'a', 'l'], ['i', 'c']), (['f', 'u', 'l'], [])]),
    ('s', [(['n', 'e', 's', 's'], [])])]

def step4 : Except Fault PorterStemmer := do
  let u ← unitAt p.b p.k
  p.replace (caseOf step4Cases u)

/-- The cases of `step5`; the flag marks `ends("ion") && j >= 0 && (b[j] == 's' || b[j] == 't')`. -/
def step5Cases : List (Char × List (List Char × Bool)) :=
  [('a', [(['a', 'l'], false)]),
    ('c', [(['a', 'n', 'c', 'e'], false), (['e', 'n', 'c', 'e'], false)]),
    ('e', [(['e', 'r'], false)]),
    ('i', [(['i', 'c'], false)]),
    ('l', [(['a', 'b', 'l', 'e'], false), (['i', 'b', 'l', 'e'], false)]),
    ('n', [(['a', 'n', 't'], false), (['e', 'm', 'e', 'n', 't'], false),
      (['m', 'e', 'n', 't'], false), (['e', 'n', 't'], false)]),
    ('o', [(['i', 'o', 'n'], true), (['o', 'u'], false)]),
    ('s', [(['i', 's', 'm'], false)]),
    ('t', [(['a', 't', 'e'], false), (['i', 't', 'i'], false)]),
    ('u', [(['o', 'u', 's'], false)]),
    ('v', [(['i', 'v', 'e'], false)]),
    ('z', [(['i', 'z', 'e'], false)])]

/-- A run of `if (ends(..)) break;`: whether one of the suffixes is there. -/
def endsAny : List (List Char × Bool) → PorterStemmer → Except Fault (Bool × PorterStemmer)
  | [], p => return (false, p)
  | (suffix, afterST) :: rest, p => do
      let (found, p) ← p.ends suffix
      if !found then endsAny rest p
      else if !afterST then return (true, p)
      else if p.j < 0 then endsAny rest p
      else do
        let u ← unitAt p.b p.j
        if u = 's'.toNat || u = 't'.toNat then return (true, p) else endsAny rest p

def step5 : Except Fault PorterStemmer :=
  if p.k = 0 then return p
  else do
    let u ← unitAt p.b (p.k - 1)
    let (found, p) ← p.endsAny (caseOf step5Cases u)
    if !found then return p
    else do
      let n ← p.m
      if 1 < n then return { p with k := p.j } else return p

/-- The final `e` of `step6`. -/
def finalE : Except Fault PorterStemmer := do
  let u ← unitAt p.b p.k
  if u = 'e'.toNat then do
    let a ← p.m
    if 1 < a then return { p with k := p.k - 1 }
    else if a = 1 then do
      let short ← p.cvc (p.k - 1)
      if short then return p else return { p with k := p.k - 1 }
    else return p
  else return p

/-- The final double `l` of `step6`. -/
def finalL : Except Fault PorterStemmer := do
  let u ← unitAt p.b p.k
  if u = 'l'.toNat then do
    let double ← p.doublec p.k
    if double then do
      let n ← p.m
      if 1 < n then return { p with k := p.k - 1 } else return p
    else return p
  else return p

def step6 : Except Fault PorterStemmer := do
  let p ← finalE { p with j := p.k }
  p.finalL

/-- The steps, for a word of more than two units. -/
def steps : Except Fault PorterStemmer := do
  let p ← p.step1
  let p ← p.step2
  let p ← p.step3
  let p ← p.step4
  let p ← p.step5
  p.step6

/-- `stem`: the buffer and the new length.  The object is reused from call to call, so
`j` is what the last one left. -/
def stem (j : Int) (buf : List Nat) : Except Fault (List Nat × Nat) :=
  let len := int32 buf.length
  if len = -2 ^ 31 then .error .undefined
  else do
    let p : PorterStemmer := { b := buf, j, k := len - 1 }
    let p ← if 1 < p.k then p.steps else pure p
    return (p.b, ((p.k + 1) % 2 ^ 64).toNat)

end PorterStemmer

end HybridSearch.Engine
