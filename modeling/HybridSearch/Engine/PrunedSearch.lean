/-
# Engine.PrunedSearch -- document-at-a-time search with pruning (search.cc)

`run_daat`, `run_maxscore` and `run_wand`, the latter with and without block bounds, over
the posting cursors of a query.  They differ in which documents they score: MaxScore and
WAND skip those whose score bounds cannot beat the worst of the kept ones.

Sums and the final rounding are exact.  The counters of `LexicalResult` are left out.
-/
import HybridSearch.Engine.Deadline
import HybridSearch.Engine.PostingCursor
import HybridSearch.Engine.Query
import HybridSearch.Engine.TopK

namespace HybridSearch.Engine

set_option autoImplicit false

def kBoundSlack : ℚ := 1 + 1 / 2 ^ 40

def kDeadlineEvery : Nat := 128

def cannotBeat (top : TopK) (boundSum : ℚ) : Bool :=
  match top.threshold with
  | some x => top.full && decide (boundSum * kBoundSlack ≤ x)
  | none => false

/-- A clause and its cursor.  `canon` is the place of the clause in the query. -/
structure Slot where
  term : QTerm
  info : TermInfo
  canon : Nat
  cur : Cursor

/-- The contributions to one document, by clause. -/
structure Tally where
  contrib : List ℚ
  hit : List Bool
  partial_ : ℚ

namespace Tally

def clear (t : Tally) : Tally := { t with hit := t.hit.map fun _ => false, partial_ := 0 }

def add (t : Tally) (canon : Nat) (x : ℚ) : Tally :=
  ⟨t.contrib.set canon x, t.hit.set canon true, t.partial_ + x⟩

/-- `canonical_sum`. -/
def canonicalSum (t : Tally) : ℚ :=
  (t.contrib.zip t.hit).foldl (fun s entry => if entry.2 then s + entry.1 else s) 0

def start (n : Nat) : Tally := ⟨List.replicate n 0, List.replicate n false, 0⟩

end Tally

section Search

variable (P : Platform) (ix : LexicalIndex) (codec : Codec) (sc : Scorer)

namespace Slot

def doc (s : Slot) : Nat := s.cur.doc

def contrib (s : Slot) (d : Nat) : Except Fault ℚ := do
  let tf ← s.cur.tf
  pure (sc.contrib s.term.weight d tf)

def next (s : Slot) : Except Fault Slot := do
  let cur ← s.cur.next P ix s.info codec
  pure { s with cur }

def nextGeq (s : Slot) (target : Nat) : Except Fault Slot := do
  let cur ← s.cur.nextGeq P ix s.info codec target
  pure { s with cur }

def shallowNext (s : Slot) (target : Nat) : Except Fault Slot := do
  let cur ← s.cur.shallowNext ix s.info target
  pure { s with cur }

end Slot

def initSlots : Nat → List QTerm → Except Fault (List Slot)
  | _, [] => pure []
  | i, term :: rest => do
      let info ← at? ix.terms term.id
      let cur ← Cursor.init P ix info codec
      let slots ← initSlots (i + 1) rest
      pure (⟨term, info, i, cur⟩ :: slots)

def minDoc (slots : List Slot) : Nat := slots.foldl (fun d s => min d s.doc) kEnd

/-! ## run_daat -/

/-- The score of `d`, and the cursors on it stepped. -/
def scoreAt (d : Nat) : List Slot → ℚ → Except Fault (ℚ × List Slot)
  | [], s => pure (s, [])
  | slot :: rest, s =>
      if slot.doc = d then do
        let x ← slot.contrib sc d
        let slot ← slot.next P ix codec
        let (s, rest) ← scoreAt d rest (s + x)
        pure (s, slot :: rest)
      else do
        let (s, rest) ← scoreAt d rest s
        pure (s, slot :: rest)

def daatLoop : Nat → List Slot → TopK → Deadline → Except Fault (TopK × Bool)
  | 0, _, _, _ => .error .diverged
  | fuel + 1, slots, top, dl =>
      let d := minDoc slots
      if d = kEnd then pure (top, false)
      else
        let (fired, dl) := dl.expiredEvery kDeadlineEvery
        if fired then pure (top, true)
        else do
          let (s, slots) ← scoreAt P ix codec sc d slots 0
          daatLoop fuel slots (top.push d s).2 dl

/-! ## run_maxscore -/

/-- `prefix`: the running sums of the bounds. -/
def prefixSums : ℚ → List Slot → List ℚ
  | _, [] => []
  | run, slot :: rest => (run + slot.term.ub) :: prefixSums (run + slot.term.ub) rest

/-- `update_partition`, for `first_essential`. -/
def updatePartition (sums : List ℚ) (top : TopK) (first : Nat) : Nat :=
  first + ((sums.drop first).takeWhile (cannotBeat top)).length

/-- The essential lists: take in and step those on `d`. -/
def gather (d : Nat) : List Slot → Tally → Except Fault (List Slot × Tally)
  | [], tally => pure ([], tally)
  | slot :: rest, tally =>
      if slot.doc = d then do
        let x ← slot.contrib sc d
        let slot ← slot.next P ix codec
        let (rest, tally) ← gather d rest (tally.add slot.canon x)
        pure (slot :: rest, tally)
      else do
        let (rest, tally) ← gather d rest tally
        pure (slot :: rest, tally)

/-- The other lists, the greatest bound first; true when `d` is pruned. -/
def probe (d : Nat) (top : TopK) (sums : List ℚ) :
    Nat → List Slot → Tally → Except Fault (Bool × List Slot × Tally)
  | 0, slots, tally => pure (false, slots, tally)
  | i + 1, slots, tally =>
      if cannotBeat top (tally.partial_ + sums.getD i 0) then pure (true, slots, tally)
      else do
        let slot ← at? slots i
        let slot ← slot.nextGeq P ix codec d
        let slots := slots.set i slot
        if slot.doc = d then do
          let x ← slot.contrib sc d
          probe d top sums i slots (tally.add slot.canon x)
        else probe d top sums i slots tally

def maxScoreLoop (sums : List ℚ) :
    Nat → List Slot → Nat → Tally → TopK → Deadline → Except Fault (TopK × Bool)
  | 0, _, _, _, _, _ => .error .diverged
  | fuel + 1, slots, first, tally, top, dl =>
      if slots.length ≤ first then pure (top, false)
      else
        let d := minDoc (slots.drop first)
        if d = kEnd then pure (top, false)
        else
          let (fired, dl) := dl.expiredEvery kDeadlineEvery
          if fired then pure (top, true)
          else do
            let (essential, tally) ← gather P ix codec sc d (slots.drop first) tally.clear
            let (pruned, slots, tally) ← probe P ix codec sc d top sums first (slots.take first ++ essential) tally
            if pruned then maxScoreLoop sums fuel slots first tally top dl
            else
              let (admitted, top) := top.push d tally.canonicalSum
              maxScoreLoop sums fuel slots (if admitted then updatePartition sums top first else first) tally top dl

/-! ## run_wand -/

/-- The insertion of `sort_by_doc`: behind the cursors that are not further on. -/
def insertByDoc (slot : Slot) : List Slot → List Slot
  | [] => [slot]
  | other :: rest => if slot.doc < other.doc then slot :: other :: rest else other :: insertByDoc slot rest

def sortByDoc (slots : List Slot) : List Slot := slots.foldl (fun sorted slot => insertByDoc slot sorted) []

/-- The first position whose cumulative bound could beat the threshold. -/
def findPivot (top : TopK) : ℚ → Nat → List Slot → Option Nat
  | _, _, [] => none
  | acc, i, slot :: rest =>
      if slot.doc = kEnd then none
      else if cannotBeat top (acc + slot.term.ub) then findPivot top (acc + slot.term.ub) (i + 1) rest
      else some i

/-- `shallow_next` on the pivot's lists, and the sum of their block bounds. -/
def shallowAll (pivot : Nat) : List Slot → ℚ → Except Fault (List Slot × ℚ)
  | [], sum => pure ([], sum)
  | slot :: rest, sum => do
      let slot ← slot.shallowNext ix pivot
      let sum ← if slot.cur.blockValid slot.info then do
          let bound ← slot.cur.blockBound ix slot.info
          pure (sum + sc.bound slot.term.weight bound)
        else pure sum
      let (rest, sum) ← shallowAll pivot rest sum
      pure (slot :: rest, sum)

/-- The smallest block end of the lists. -/
def nextBlock : List Slot → Nat → Except Fault Nat
  | [], next => pure next
  | slot :: rest, next => do
      let last ← slot.cur.blockLast ix slot.info
      nextBlock rest (min next (u32 (last + 1)))

/-- The list with the greatest bound, from list `i` on. -/
def greatest : List Slot → Nat → Nat → ℚ → Nat
  | [], _, adv, _ => adv
  | slot :: rest, i, adv, ub =>
      if ub < slot.term.ub then greatest rest (i + 1) i slot.term.ub else greatest rest (i + 1) adv ub

/-- Take in the lists on the pivot, which come first. -/
def gatherFirst (pivot : Nat) : List Slot → Tally → Except Fault Tally
  | [], tally => pure tally
  | slot :: rest, tally =>
      if slot.doc = pivot then do
        let x ← slot.contrib sc pivot
        gatherFirst pivot rest (tally.add slot.canon x)
      else pure tally

/-- Step the lists on the pivot, which come first. -/
def stepFirst (pivot : Nat) : List Slot → Except Fault (List Slot)
  | [] => pure []
  | slot :: rest =>
      if slot.doc = pivot then do
        let slot ← slot.next P ix codec
        let rest ← stepFirst pivot rest
        pure (slot :: rest)
      else pure (slot :: rest)

/-- The last list before the pivot's run, from list `a` down. -/
def lastBefore (pivot : Nat) (slots : List Slot) : Nat → Except Fault Nat
  | 0 => do
      let slot ← at? slots 0
      if slot.doc = pivot then .error .undefined else pure 0
  | a + 1 => do
      let slot ← at? slots (a + 1)
      if slot.doc = pivot then lastBefore pivot slots a else pure (a + 1)

/-- `cur[a]->next_geq(target)`, then `sort_by_doc`. -/
def advanceSlot (slots : List Slot) (a target : Nat) : Except Fault (List Slot) := do
  let slot ← at? slots a
  let slot ← slot.nextGeq P ix codec target
  pure (sortByDoc (slots.set a slot))

/-- The pivot's lists that follow it with the same document. -/
def pivotEnd (slots : List Slot) (pivot p : Nat) : Nat :=
  p + ((slots.drop (p + 1)).takeWhile fun slot => decide (slot.doc = pivot)).length

/-- Where to go on when the block bounds cannot beat the threshold. -/
def skipTarget (slots : List Slot) (pivot p : Nat) : Except Fault Nat := do
  let next ← nextBlock ix (slots.take (p + 1)) kEnd
  let next := match slots[p + 1]? with
    | some slot => min next slot.doc
    | none => next
  pure (if next ≤ pivot then u32 (pivot + 1) else next)

/-- The evaluation of the pivot, or one step towards it. -/
def moveOn (pivot p : Nat) (slots : List Slot) (tally : Tally) (top : TopK) :
    Except Fault (List Slot × Tally × TopK) := do
  let front ← at? slots 0
  if front.doc = pivot then do
    let tally ← gatherFirst sc pivot slots tally.clear
    let slots ← stepFirst P ix codec pivot slots
    pure (sortByDoc slots, tally, (top.push pivot tally.canonicalSum).2)
  else do
    let a ← lastBefore pivot slots p
    let slots ← advanceSlot P ix codec slots a pivot
    pure (slots, tally, top)

/-- `run_wand`, with or without `kBlockMax`. -/
def wandLoop (blockMax : Bool) : Nat → List Slot → Tally → TopK → Deadline → Except Fault (TopK × Bool)
  | 0, _, _, _, _ => .error .diverged
  | fuel + 1, slots, tally, top, dl =>
      let (fired, dl) := dl.expiredEvery kDeadlineEvery
      if fired then pure (top, true)
      else
        match findPivot top 0 0 slots with
        | none => pure (top, false)
        | some p => do
            let pivotSlot ← at? slots p
            let pivot := pivotSlot.doc
            let p := pivotEnd slots pivot p
            if blockMax then do
              let (front, sum) ← shallowAll ix sc pivot (slots.take (p + 1)) 0
              let slots := front ++ slots.drop (p + 1)
              if cannotBeat top sum then do
                let next ← skipTarget ix slots pivot p
                let last ← at? slots p
                let slots ← advanceSlot P ix codec slots (greatest (slots.take (p + 1)) 0 p last.term.ub) next
                wandLoop blockMax fuel slots tally top dl
              else do
                let (slots, tally, top) ← moveOn P ix codec sc pivot p slots tally top
                wandLoop blockMax fuel slots tally top dl
            else do
              let (slots, tally, top) ← moveOn P ix codec sc pivot p slots tally top
              wandLoop blockMax fuel slots tally top dl

/-! ## The algorithms -/

/-- More rounds than there are postings. -/
def rounds (slots : List Slot) : Nat := (slots.map fun slot => slot.info.df).sum + 1

def runDaat (q : Query) (k : Nat) (dl : Deadline) : Except Fault (TopK × Bool) := do
  let slots ← initSlots P ix codec 0 q.terms
  daatLoop P ix codec q.sc (rounds slots) slots (TopK.empty k) dl

/-- The lists in the order of their bounds. -/
def runMaxScore (q : Query) (k : Nat) (dl : Deadline) : Except Fault (TopK × Bool) := do
  let slots ← initSlots P ix codec 0 q.terms
  let slots := slots.mergeSort fun a b => decide (a.term.ub ≤ b.term.ub)
  maxScoreLoop P ix codec q.sc (prefixSums 0 slots) (rounds slots) slots 0 (Tally.start slots.length)
    (TopK.empty k) dl

def runWand (blockMax : Bool) (q : Query) (k : Nat) (dl : Deadline) : Except Fault (TopK × Bool) := do
  let slots ← initSlots P ix codec 0 q.terms
  wandLoop P ix codec q.sc blockMax (rounds slots) (sortByDoc slots) (Tally.start slots.length)
    (TopK.empty k) dl

end Search

end HybridSearch.Engine
