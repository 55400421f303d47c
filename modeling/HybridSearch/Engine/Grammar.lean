/-
# Engine.Grammar -- from the token grammar to tables (src/lexical/tokenizer.cc)

The token rules are a regular expression over property predicates (`Node`,
`buildGrammar`).  `Nfa.compile` turns it into an automaton with silent edges, one
state pair after the other, `Nfa.closure` is its worklist, and
`subsetConstruction` makes the transition table over the property masks, set by
set in the order they are found.

A `-1` of the source is `none`: a state without a predicate, a missing entry.
The sets of automaton states are kept in the result; the source drops them.
-/
import HybridSearch.Engine.Tokenizer

namespace HybridSearch.Engine

set_option autoImplicit false

/-! ## Properties and predicates (src/lexical/unicode_props.hpp) -/

namespace Uni

def wbFormat : Nat := 1 <<< 0
def wbExtend : Nat := 1 <<< 1
def wbZwj : Nat := 1 <<< 2
def wbRegionalIndicator : Nat := 1 <<< 3
def wbALetter : Nat := 1 <<< 4
def wbHebrewLetter : Nat := 1 <<< 5
def wbNumeric : Nat := 1 <<< 6
def wbKatakana : Nat := 1 <<< 7
def wbMidLetter : Nat := 1 <<< 8
def wbMidNumLet : Nat := 1 <<< 9
def wbSingleQuote : Nat := 1 <<< 10
def wbMidNum : Nat := 1 <<< 11
def wbExtendNumLet : Nat := 1 <<< 12
def wbDoubleQuote : Nat := 1 <<< 13
def scHangul : Nat := 1 <<< 14
def scHan : Nat := 1 <<< 15
def scHiragana : Nat := 1 <<< 16
def lbSa : Nat := 1 <<< 17
def emoji : Nat := 1 <<< 18
def emojiModifier : Nat := 1 <<< 19
def emojiModifierBase : Nat := 1 <<< 20
def extendedPictographic : Nat := 1 <<< 21
def keyCapBase : Nat := 1 <<< 22
def accidentalEmoji : Nat := 1 <<< 23
def vs15 : Nat := 1 <<< 24
def vs16 : Nat := 1 <<< 25
def keyCap : Nat := 1 <<< 26
def tagSpec : Nat := 1 <<< 27
def tagTerm : Nat := 1 <<< 28

end Uni

/-- A character-set predicate over property masks. -/
structure Pred where
  all : Nat
  any : Nat
  none : Nat
  deriving DecidableEq, Repr

def Pred.matches (p : Pred) (m : Nat) : Bool :=
  (m &&& p.all == p.all) && (p.any == 0 || m &&& p.any != 0) && m &&& p.none == 0

/-- The grammar's syntax tree; a `cat` has a first child. -/
inductive Node
  | sym (pred : Pred)
  | cat (first : Node) (rest : List Node)
  | alt (kids : List Node)
  | star (kid : Node)
  | plus (kid : Node)
  | opt (kid : Node)

/-- `any_of`. -/
def anyOf (any : Nat) (none : Nat := 0) : Node := .sym ⟨0, any, none⟩

open Uni in
/-- `build_grammar`. -/
def buildGrammar : Node :=
  -- UAX#29 WB4: X (Extend | Format | ZWJ)* --> X
  let extFmtZwj := .star (anyOf (wbFormat ||| wbExtend ||| wbZwj))
  let ex (x : Node) : Node := .cat x [extFmtZwj]
  -- emoji macros
  let extFmtZwjSansPresSel := .star (anyOf (wbFormat ||| wbExtend ||| wbZwj) (vs15 ||| vs16))
  let keyCapBaseCharEx := .cat (anyOf keyCapBase) [extFmtZwjSansPresSel]
  let keyCapEx := .cat (anyOf keyCap) [extFmtZwjSansPresSel]
  let emojiRkam := wbRegionalIndicator ||| keyCapBase ||| accidentalEmoji ||| emojiModifier
  let emojiChar := .alt [anyOf extendedPictographic, anyOf emoji emojiRkam]
  let emojiCharEx := .cat emojiChar [extFmtZwjSansPresSel]
  let emojiModifierBaseEx := .cat (anyOf emojiModifierBase) [extFmtZwjSansPresSel]
  let emojiModifierEx := .cat (anyOf emojiModifier) [extFmtZwjSansPresSel]
  let emojiPresentationSelector := anyOf vs16
  let zwj := anyOf wbZwj
  let emojiCharOrPresSeqOrModSeq := .alt [
    .cat (.star zwj) [emojiCharEx, .opt emojiPresentationSelector],
    .cat (.opt (.cat (.star zwj) [emojiModifierBaseEx])) [emojiModifierEx]]
  let regionalIndicatorEx := ex (anyOf wbRegionalIndicator)
  let emojiRule := .alt [
    .cat emojiCharOrPresSeqOrModSeq [.alt [
      .star (.cat zwj [emojiCharOrPresSeqOrModSeq]),
      .cat (.plus (anyOf tagSpec)) [anyOf tagTerm]]],
    .cat keyCapBaseCharEx [.opt emojiPresentationSelector, keyCapEx],
    .cat regionalIndicatorEx [regionalIndicatorEx]]
  -- word macros
  let hangulEx := ex (.sym ⟨scHangul, wbALetter ||| wbHebrewLetter, 0⟩)
  let ahLetterEx := ex (anyOf (wbALetter ||| wbHebrewLetter))
  let numericEx := ex (anyOf wbNumeric)
  let katakanaEx := ex (anyOf wbKatakana)
  let midLetterEx := ex (anyOf (wbMidLetter ||| wbMidNumLet ||| wbSingleQuote))
  let midNumericEx := ex (anyOf (wbMidNum ||| wbMidNumLet ||| wbSingleQuote))
  let extendNumLetEx := ex (anyOf wbExtendNumLet)
  let hanEx := ex (anyOf scHan)
  let hiraganaEx := ex (anyOf scHiragana)
  let singleQuoteEx := ex (anyOf wbSingleQuote)
  let doubleQuoteEx := ex (anyOf wbDoubleQuote)
  let hebrewLetterEx := ex (anyOf wbHebrewLetter)
  let complexContextEx := ex (anyOf lbSa)
  -- WB8, WB11, WB12, WB13a, WB13b
  let numeric := .cat (.star extendNumLetEx) [numericEx,
    .star (.cat (.alt [.star extendNumLetEx, midNumericEx]) [numericEx]), .star extendNumLetEx]
  let hangul := .plus hangulEx
  let katakana := .plus katakanaEx
  -- WB5-WB7c, WB9, WB10, WB13, WB13a, WB13b
  let inner := .alt [
    .cat katakanaEx [.star (.cat (.star extendNumLetEx) [katakanaEx])],
    .plus (.alt [
      .cat hebrewLetterEx [.alt [singleQuoteEx, .cat doubleQuoteEx [hebrewLetterEx]]],
      .cat numericEx [.star (.cat (.alt [.star extendNumLetEx, midNumericEx]) [numericEx])],
      .cat ahLetterEx [.star (.cat (.alt [.star extendNumLetEx, midLetterEx]) [ahLetterEx])]])]
  let word := .cat (.star extendNumLetEx) [inner, .star (.cat (.plus extendNumLetEx) [inner]),
    .star extendNumLetEx]
  let southEastAsian := .plus complexContextEx
  .alt [emojiRule, numeric, hangul, katakana, word, southEastAsian, hanEx, hiraganaEx]

/-! ## The automaton with silent edges -/

namespace Nfa

structure State where
  pred : Option Nat
  next : Option Nat
  eps : List Nat
  deriving DecidableEq, Repr

def State.init : State := ⟨none, none, []⟩

end Nfa

structure Nfa where
  st : List Nfa.State
  preds : List Pred
  deriving DecidableEq, Repr

namespace Nfa

def init : Nfa := ⟨[], []⟩

/-- `add`: a new state; its number is the old `st.size()`. -/
def add (nfa : Nfa) : Nfa := { nfa with st := nfa.st ++ [State.init] }

/-- `st[i].eps.push_back(j)`. -/
def addEps (nfa : Nfa) (i j : Nat) : Nfa :=
  { nfa with st := nfa.st.modify i fun s => { s with eps := s.eps ++ [j] } }

/-- The body of `case Node::Sym`: an edge from `s` to `e` under a new predicate. -/
def addSym (nfa : Nfa) (s e : Nat) (pred : Pred) : Nfa where
  st := nfa.st.modify s fun state => { state with pred := some nfa.preds.length, next := some e }
  preds := nfa.preds ++ [pred]

mutual

/-- `compile`: the automaton with the node's states, their entry and exit. -/
def compile : Node → Nfa → Nfa × Nat × Nat
  | .sym pred, nfa =>
      let s := nfa.st.length
      let e := s + 1
      (nfa.add.add.addSym s e pred, s, e)
  | .cat first rest, nfa =>
      let (nfa, s, e) := compile first nfa
      let (nfa, e) := compileCat rest nfa e
      (nfa, s, e)
  | .alt kids, nfa =>
      let s := nfa.st.length
      let e := s + 1
      (compileAlt kids nfa.add.add s e, s, e)
  | .star kid, nfa =>
      let s := nfa.st.length
      let e := s + 1
      let (nfa, ks, ke) := compile kid nfa.add.add
      ((((nfa.addEps s ks).addEps s e).addEps ke e).addEps ke ks, s, e)
  | .plus kid, nfa =>
      let s := nfa.st.length
      let e := s + 1
      let (nfa, ks, ke) := compile kid nfa.add.add
      (((nfa.addEps s ks).addEps ke e).addEps ke ks, s, e)
  | .opt kid, nfa =>
      let s := nfa.st.length
      let e := s + 1
      let (nfa, ks, ke) := compile kid nfa.add.add
      (((nfa.addEps s ks).addEps s e).addEps ke e, s, e)

/-- The loop of `case Node::Cat`: the further children after the exit `e`. -/
def compileCat : List Node → Nfa → Nat → Nfa × Nat
  | [], nfa, e => (nfa, e)
  | kid :: rest, nfa, e =>
      let (nfa, s2, e2) := compile kid nfa
      compileCat rest (nfa.addEps e s2) e2

/-- The loop of `case Node::Alt`. -/
def compileAlt : List Node → Nfa → Nat → Nat → Nfa
  | [], nfa, _, _ => nfa
  | kid :: rest, nfa, s, e =>
      let (nfa, ks, ke) := compile kid nfa
      compileAlt rest ((nfa.addEps s ks).addEps ke e) s e

end

/-- The state with a number. -/
def state (nfa : Nfa) (i : Nat) : State := nfa.st.getD i State.init

/-- What `closure` keeps: the states seen, the stack (its top first) and the set. -/
structure Worklist where
  seen : Nat → Bool
  stack : List Nat
  set : List Nat

/-- The body of the inner loop of `closure`. -/
def visit (work : Worklist) (t : Nat) : Worklist :=
  if work.seen t then work
  else ⟨Function.update work.seen t true, t :: work.stack, work.set ++ [t]⟩

/-- The outer loop of `closure`. -/
def closureLoop (nfa : Nfa) : Nat → Worklist → Worklist
  | 0, work => work
  | fuel + 1, work =>
      match work.stack with
      | [] => work
      | s :: stack => closureLoop nfa fuel ((nfa.state s).eps.foldl visit { work with stack })

/-- `closure`: the states silent edges lead to, sorted. -/
def closure (nfa : Nfa) (set : List Nat) : List Nat :=
  (nfa.closureLoop (nfa.st.length + set.length)
    ⟨fun i => decide (i ∈ set), set.reverse, set⟩).set.mergeSort

/-- The states an edge of class `c` leads to from `cur`, sorted, without repetition. -/
def moves (nfa : Nfa) (masks : List Nat) (cur : List Nat) (c : Nat) : List Nat :=
  (cur.flatMap fun s =>
    match (nfa.state s).pred with
    | none => []
    | some p =>
        if (nfa.preds.getD p ⟨0, 0, 0⟩).matches (masks.getD c 0) then (nfa.state s).next.toList
        else []).mergeSort.dedup

end Nfa

/-! ## The subset construction -/

/-- `v.resize(n, fill)`. -/
def resize {α : Type} (v : List α) (n : Nat) (fill : α) : List α :=
  v.take n ++ List.replicate (n - v.length) fill

/-- The locals of the construction; `ids` finds a set's number in `sets`. -/
structure Subset where
  sets : List (List Nat)
  trans : List Int
  accept : List Nat
  deriving DecidableEq, Repr

namespace Subset

variable (nfa : Nfa) (masks : List Nat)

/-- The body of the loop over the classes, for the set `cur` with number `d`. -/
def stepClass (d : Nat) (cur : List Nat) (sub : Subset) (c : Nat) : Except Fault Subset :=
  let nxt := nfa.moves masks cur c
  if nxt = [] then .ok sub
  else
    let nxt := nfa.closure nxt
    match sub.sets.idxOf? nxt with
    | some id => .ok { sub with trans := sub.trans.set (d * masks.length + c) id }
    | none =>
        let id := sub.sets.length
        if 32000 < id then .error (.thrown "tokenizer: DFA too large")
        else
          .ok { sub with
            sets := sub.sets ++ [nxt]
            trans := sub.trans.set (d * masks.length + c) id }

/-- The loop over the sets, from number `d` on. -/
def construct (accept : Nat) : Nat → Nat → Subset → Except Fault Subset
  | 0, _, _ => .error .diverged
  | fuel + 1, d, sub =>
      match sub.sets[d]? with
      | none => .ok { sub with trans := resize sub.trans (sub.sets.length * masks.length) (-1) }
      | some cur => do
          let sub := { sub with
            accept := sub.accept ++ [if accept ∈ cur then 1 else 0]
            trans := resize sub.trans (sub.sets.length * masks.length + masks.length) (-1) }
          let sub ← (List.range masks.length).foldlM (stepClass nfa masks d cur) sub
          construct accept fuel (d + 1) sub

end Subset

/-- Grammar to tables, over the alphabet of the masks. -/
def subsetConstruction (grammar : Node) (masks : List Nat) : Except Fault Subset :=
  let (nfa, start, accept) := Nfa.init.compile grammar
  Subset.construct nfa masks accept 32002 0 ⟨[nfa.closure [start]], [], []⟩

end HybridSearch.Engine
