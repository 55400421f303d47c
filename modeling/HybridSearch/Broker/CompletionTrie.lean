/-
# Broker.CompletionTrie -- the autocomplete trie

A radix trie over the UTF-8 bytes of the logged queries.  The distinct queries are
sorted by bytes and laid out in one blob; an edge label is a slice of the blob, the
children of a node are adjacent and ordered by their first label byte, and every
node holds the indices of its best queries.  The parallel arrays of the source are
records here, and `sortEntries` is the sort of the entries, which is unstable.
-/
import Mathlib
import HybridSearch.Theory.BinarySearch
import HybridSearch.Theory.BestK
import HybridSearch.Theory.LexOrder
import HybridSearch.Theory.Ranking

namespace HybridSearch.Broker.CompletionTrie

open HybridSearch.Theory

set_option autoImplicit false

abbrev Byte := Fin 256

/-- `Encoding.UTF8.GetBytes`. -/
def getBytes (text : String) : List Byte := text.toUTF8.data.toList.map UInt8.toFin

/-- `Encoding.UTF8.GetString`; bytes that are not UTF-8 never reach it. -/
def getString (bytes : List Byte) : String :=
  (String.fromUTF8? ⟨(bytes.map UInt8.ofFin).toArray⟩).getD ""

abbrev Entry := List Byte × Int

/-! ## The sorted queries -/

/-- The queries in one blob. -/
structure Strings where
  blob : List Byte
  strOffset : List Nat
  strLen : List Nat
  count : List Int

namespace Strings

variable (s : Strings)

def size : Nat := s.strLen.length

def slice (start len : Nat) : List Byte := (s.blob.drop start).take len

def offset (i : Nat) : Nat := s.strOffset.getD i 0

def len (i : Nat) : Nat := s.strLen.getD i 0

def bytes (i : Nat) : List Byte := s.slice (s.offset i) (s.len i)

def countAt (i : Nat) : Int := s.count.getD i 0

/-- Byte `j` of string `i`. -/
def letter (i j : Nat) : Byte := s.blob.getD (s.offset i + j) 0

end Strings

def mergeEntry (merged : List Entry) (e : Entry) : List Entry :=
  match merged.getLast? with
  | some last => if last.1 = e.1 then merged.dropLast ++ [(last.1, last.2 + e.2)] else merged ++ [e]
  | none => [e]

def offsets : Nat → List Entry → List Nat
  | _, [] => []
  | off, e :: rest => off :: offsets (off + e.1.length) rest

def layout (merged : List Entry) : Strings where
  blob := merged.flatMap Prod.fst
  strOffset := offsets 0 merged
  strLen := merged.map fun e => e.1.length
  count := merged.map Prod.snd

/-! ## The builder -/

structure Node where
  labelStart : Nat
  labelLen : Nat
  firstChild : Nat := 0
  childCount : Nat := 0
  topStart : Nat := 0
  topCount : Nat := 0
  deriving DecidableEq, Repr, Inhabited

structure Builder where
  nodes : List Node
  top : List Nat

namespace Builder

def node (b : Builder) (m : Nat) : Node := b.nodes.getD m default

def newNode (b : Builder) (labelStart labelLen : Nat) : Builder :=
  { b with nodes := b.nodes ++ [{ labelStart, labelLen }] }

def setChildren (b : Builder) (m firstChild childCount : Nat) : Builder :=
  { b with nodes := b.nodes.modify m fun n => { n with firstChild, childCount } }

/-- Append the best of the scratch list and point node `m` to it. -/
def setTop (b : Builder) (m : Nat) (best : List Nat) : Builder where
  nodes := b.nodes.modify m fun n => { n with topStart := b.top.length, topCount := best.length }
  top := b.top ++ best

def topOf (b : Builder) (m : Nat) : List Nat :=
  (b.top.drop (b.node m).topStart).take (b.node m).topCount

end Builder

/-- Strings `[lo, hi)` share their first `lcp` bytes. -/
structure Group where
  lo : Nat
  hi : Nat
  lcp : Nat
  deriving DecidableEq, Repr

section Build

variable (s : Strings)

/-- `while (i < max && At(a, i) == At(b, i)) i++`, with `n = max - i`. -/
def lcpFrom (a b : Nat) : Nat → Nat → Nat
  | 0, i => i
  | n + 1, i => if s.letter a i = s.letter b i then lcpFrom a b n (i + 1) else i

def lcp (a b start : Nat) : Nat := lcpFrom s a b (min (s.len a) (s.len b) - start) start

/-- `while (j < hi && At(j, depth) == b) j++`, with `n = hi - j`. -/
def runEnd (depth : Nat) (b : Byte) : Nat → Nat → Nat
  | 0, j => j
  | n + 1, j => if s.letter j depth = b then runEnd depth b n (j + 1) else j

/-- The groups of `[i, hi)` by the byte at `depth`. -/
def groupsFrom (depth hi : Nat) : Nat → Nat → List Group
  | 0, _ => []
  | fuel + 1, i =>
      if i < hi then
        let j := runEnd s depth (s.letter i depth) (hi - (i + 1)) (i + 1)
        ⟨i, j, lcp s i (j - 1) (depth + 1)⟩ :: groupsFrom depth hi fuel j
      else []

/-- The string that ends at this node; sorted, it comes first. -/
def terminal (g : Group) : List Nat := if g.lo < g.hi ∧ s.len g.lo = g.lcp then [g.lo] else []

def groups (g : Group) : List Group :=
  groupsFrom s g.lcp g.hi (g.hi - g.lo) (g.lo + (terminal s g).length)

/-- Count descending, then text ascending. -/
def before (x y : Nat) : Bool :=
  if s.countAt x ≠ s.countAt y then decide (s.countAt y < s.countAt x) else decide (x ≤ y)

/-- `Build(node, g.Lo, g.Hi, g.Lcp)`: the children are allocated before the recursion, so that
they are adjacent. -/
def build (maxK : Nat) : Nat → Nat → Group → Builder → Builder
  | 0, _, _, b => b
  | fuel + 1, node, g, b =>
      let children := (groups s g).zipIdx b.nodes.length
      let b := b.setChildren node b.nodes.length children.length
      let b := children.foldl
        (fun b c => b.newNode (s.offset c.1.lo + g.lcp) (c.1.lcp - g.lcp)) b
      let b := children.foldl (fun b c => build maxK fuel c.2 c.1 b) b
      b.setTop node (BestK.best (before s) maxK (terminal s g ++ children.flatMap fun c => b.topOf c.2))

/-- Every step of the recursion is one byte deeper. -/
def buildFuel : Nat := s.strLen.foldl max 0 + 1

def buildRoot (maxK : Nat) : Builder :=
  build s maxK (buildFuel s) 0 ⟨0, s.size, 0⟩ (Builder.newNode ⟨[], []⟩ 0 0)

end Build

/-! ## The trie -/

structure Trie where
  strings : Strings
  builder : Builder
  maxK : Int

/-- Empty strings and counts that are not positive are skipped. -/
def entryOf (e : String × Int) : Option Entry :=
  if e.1 = "" ∨ e.2 ≤ 0 then none else some (getBytes e.1, e.2)

def build? (sortEntries : List Entry → List Entry) (counts : List (String × Int)) (maxK : Int) :
    Except String Trie :=
  if maxK ≤ 0 then .error "maxK"
  else
    let merged := (sortEntries (counts.filterMap entryOf)).foldl mergeEntry []
    .ok ⟨layout merged, buildRoot (layout merged) maxK.toNat, maxK⟩

namespace Trie

variable (t : Trie)

def compareByte (b first : Byte) : Ordering :=
  if b = first then .eq else if b < first then .lt else .gt

def findChild (node : Nat) (first : Byte) : Option Nat :=
  let n := t.builder.node node
  BinarySearch.find
    (fun mid => compareByte (t.strings.blob.getD (t.builder.node mid).labelStart 0) first)
    n.childCount n.firstChild (n.firstChild + n.childCount)

/-- The loop of `FindNode` on what is left of the prefix. -/
def findNode : Nat → Nat → List Byte → Option Nat
  | _, node, [] => some node
  | 0, _, _ :: _ => none
  | fuel + 1, node, first :: rest =>
      match findChild t node first with
      | none => none
      | some child =>
          let m := min (t.builder.node child).labelLen (first :: rest).length
          if t.strings.slice (t.builder.node child).labelStart m = (first :: rest).take m then
            findNode fuel child ((first :: rest).drop m)
          else none

/-- `new List<Completion>(capacity)` throws on a negative capacity. -/
def lookup (normalizedPrefix : String) (k : Int) : Except String (List (String × Int)) :=
  if min k t.maxK < 0 then .error "capacity"
  else if k ≤ 0 ∨ t.strings.size = 0 then .ok []
  else
    let pre := getBytes normalizedPrefix
    match findNode t pre.length 0 pre with
    | none => .ok []
    | some node =>
        .ok (((t.builder.topOf node).take k.toNat).map fun s =>
          (getString (t.strings.bytes s), t.strings.countAt s))

def countOf (normalizedQuery : String) : Int :=
  let bytes := getBytes normalizedQuery
  match BinarySearch.find (fun mid => LexOrder.sequenceCompare (t.strings.bytes mid) bytes)
      t.strings.size 0 t.strings.size with
  | some mid => t.strings.countAt mid
  | none => 0

end Trie

end HybridSearch.Broker.CompletionTrie
