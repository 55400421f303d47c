/-
# Engine.VamanaBuild -- building the graph index (src/vector/vamana.cc, `VamanaIndex::build`)

Every point is searched from the medoid and pruned, a batch at a time: the batch is
searched against the frozen graph, then its out-lists are installed, then the back
edges, grouped by their destination, are appended with some slack or pruned again.
Rows have `C` slots while the graph is built and `R` afterwards.

The tasks of a parallel loop write rows of their own and are taken in order.  What
depends on floats is a parameter (`BuildData`): the distances of points, the product
with `alpha`, a conversion to `uint32_t`.  `passed` records the graph after every row
that is rewritten.
-/
import HybridSearch.Engine.RobustPrune
import HybridSearch.Engine.Vamana
import HybridSearch.Theory.Regions
import Mathlib.Data.List.SplitBy
import Mathlib.Data.Rat.Floor

namespace HybridSearch.Engine

open HybridSearch.Theory

set_option autoImplicit false

structure VamanaBuildParams where
  R : Nat
  L : Nat
  alpha : ℚ
  twoPass : Bool
  maxCandidates : Nat
  maxBatchFraction : ℚ
  slack : ℚ
  seed : Nat
  deriving DecidableEq, Repr

/-- What the build reads of its points, its floats and its generator. -/
structure BuildData where
  /-- `l2sq` of two points. -/
  dist : Nat → Nat → ℚ
  /-- `l2sq` of the mean and a point. -/
  toMean : Nat → ℚ
  times : ℚ → ℚ → ℚ
  /-- `uint32_t` of a double; any value where it is out of range. -/
  toUint32 : ℚ → Nat
  /-- `size_t` of the batch fraction times the number of points. -/
  toSize : ℚ → Nat
  /-- The draws of `mt19937_64`. -/
  rng : Nat → Nat

/-- `splitmix64`. -/
def splitmix64 (x : Nat) : Nat :=
  let x := u64 (x + 0x9e3779b97f4a7c15)
  let x := u64 ((x ^^^ x >>> 30) * 0xbf58476d1ce4e5b9)
  let x := u64 ((x ^^^ x >>> 27) * 0x94d049bb133111eb)
  x ^^^ x >>> 31

/-- The order of `(distance, id)` pairs. -/
def pairLess (a b : WithTop ℚ × Nat) : Bool := decide (a.1 < b.1) || (decide (a.1 = b.1) && decide (a.2 < b.2))

/-- One chunk of `find_medoid`: the first of the nearest points of `[s, e)`. -/
def nearestIn (toMean : Nat → ℚ) (s e : Nat) : WithTop ℚ × Nat :=
  (List.range' s (e - s)).foldl
    (fun best i => if (toMean i : WithTop ℚ) < best.1 then ((toMean i : WithTop ℚ), i) else best)
    (⊤, 0)

/-- `find_medoid`: the best of every chunk, then the least of them. -/
def findMedoid (toMean : Nat → ℚ) (n : Nat) : Nat :=
  let kChunks := 256
  let per := (n + kChunks - 1) / kChunks
  let best := (List.range kChunks).map fun c => nearestIn toMean (c * per) (min n (c * per + per))
  (best.tail.foldl (fun least b => if pairLess b least then b else least) (best.headD (⊤, 0))).2

namespace VamanaIndex

/-- Write ids to the slots of a row; outside the row it is undefined. -/
def storeRow (g : VamanaIndex) (row slot : Nat) (ids : List Nat) : Except Fault VamanaIndex :=
  if row < g.n ∧ slot + ids.length ≤ g.R then
    .ok { g with adj := Regions.write g.adj (row * g.R + slot) ids }
  else .error .undefined

/-- A new out-list: copied, the rest of the row emptied. -/
def installRow (g : VamanaIndex) (row : Nat) (out : List Nat) : Except Fault VamanaIndex := do
  let g ← g.storeRow row 0 out
  let g ← g.storeRow row out.length (List.replicate (g.R - out.length) kEmptySlot)
  pure { g with deg := g.deg.set row out.length }

/-- More ids behind those of a row. -/
def appendRow (g : VamanaIndex) (row d : Nat) (extra : List Nat) : Except Fault VamanaIndex := do
  let g ← g.storeRow row d extra
  pure { g with deg := g.deg.set row (d + extra.length) }

end VamanaIndex

/-- A graph being built, with the graphs it has passed through. -/
structure Building where
  graph : VamanaIndex
  scratch : GraphScratch
  passed : List VamanaIndex

def Building.update (b : Building) (g : VamanaIndex) : Building :=
  { b with graph := g, passed := b.passed ++ [g] }

structure Built where
  index : VamanaIndex
  /-- The graph before it was compacted. -/
  uncompacted : VamanaIndex
  passed : List VamanaIndex

namespace VamanaBuild

variable (env : BuildData) (p : VamanaBuildParams) (n : Nat)

/-- `R`, no more than there are other points. -/
def maxDegree : Nat := max 1 (min p.R (if 1 < n then n - 1 else 1))

/-- `C`: `R` with some slack. -/
def capacity : Nat := max (maxDegree p n) (env.toUint32 ⌈(maxDegree p n : ℚ) * max 1 p.slack⌉)

/-! ## Initialisation -/

/-- `R` distinct random neighbours, within the fuel of the loop. -/
def drawRow (n R i : Nat) : Nat → Nat → List Nat → Except Fault (List Nat)
  | 0, _, _ => .error .diverged
  | fuel + 1, s, row =>
      if row.length < R then
        let s := splitmix64 s
        let c := u32 (s % n)
        if c = i ∨ c ∈ row then drawRow n R i fuel s row else drawRow n R i fuel s (row ++ [c])
      else .ok row

def initRow (fuel i : Nat) : Except Fault (List Nat) :=
  if n ≤ 1 then .ok []
  else if n - 1 ≤ maxDegree p n then .ok ((List.range n).filter fun j => decide (j ≠ i))
  else drawRow n (maxDegree p n) i fuel (splitmix64 (p.seed ^^^ u64 (0x51ED27A3 * (i + 1)))) []

/-- Rows without neighbours. -/
def emptyGraph : VamanaIndex where
  n := n
  R := capacity env p n
  medoid := findMedoid env.toMean n
  deg := List.replicate n 0
  adj := List.replicate (n * capacity env p n) kEmptySlot

def fillRow (fuel : Nat) (g : VamanaIndex) (i : Nat) : Except Fault VamanaIndex := do
  let row ← initRow p n fuel i
  g.appendRow i 0 row

/-- The graph after the random initialisation. -/
def initGraph (fuel : Nat) : Except Fault VamanaIndex :=
  (List.range n).foldlM (fillRow p n fuel) (emptyGraph env p n)

def swapAt (xs : List Nat) (i j : Nat) : List Nat := (xs.set i (xs.getD j 0)).set j (xs.getD i 0)

/-- A seeded permutation of the points. -/
def order : List Nat :=
  (List.range (n - 1)).foldl (fun xs t => swapAt xs (n - t - 1) (env.rng t % (n - t))) (List.range n)

/-! ## Batches -/

/-- Phase 1 for one point: search, then prune what was expanded and the point's row. -/
def searchPoint (alpha : ℚ) (graph : VamanaIndex) (scratch : GraphScratch) (pt : Nat) :
    Except Fault (List Nat × GraphScratch) := do
  let (s, _) ← graph.view.greedySearch (env.dist pt) graph.medoid p.L true (n + 1) scratch none
  let row ← graph.view.row pt
  pure (robustPrune env.dist env.times pt (s.expanded ++ row) alpha (maxDegree p n) p.maxCandidates, s)

def maxBatch : Nat := max 1 (env.toSize (p.maxBatchFraction * n))

/-- One point of phase 1; its out-list goes to the next part of a buffer of `maxBatch` parts. -/
def searchStep (alpha : ℚ) (graph : VamanaIndex) (acc : List (Nat × List Nat) × GraphScratch)
    (pt : Nat) : Except Fault (List (Nat × List Nat) × GraphScratch) := do
  let (out, scratch) ← searchPoint env p n alpha graph acc.2 pt
  if acc.1.length < maxBatch env p n ∧ out.length ≤ maxDegree p n then
    pure (acc.1 ++ [(pt, out)], scratch)
  else throw .undefined

/-- Phase 1: the new out-lists. -/
def searchAll (alpha : ℚ) (b : Building) (pts : List Nat) :
    Except Fault (List (Nat × List Nat) × GraphScratch) :=
  pts.foldlM (searchStep env p n alpha b.graph) ([], b.scratch)

/-- Phase 2. -/
def installAll (b : Building) (news : List (Nat × List Nat)) : Except Fault Building :=
  news.foldlM
    (fun b new => do
      let g ← b.graph.installRow new.1 new.2
      pure (b.update g))
    b

/-- The back edges of a batch, `(dst, src)`, grouped by their destination. -/
def groups (news : List (Nat × List Nat)) : List (List (Nat × Nat)) :=
  let pairs := news.flatMap fun new => new.2.map fun dst => (dst, new.1)
  (pairs.mergeSort fun a c => decide (a.1 ≤ c.1)).splitBy fun a c => a.1 == c.1

/-- The sources that are not in the row yet. -/
def extras (dst : Nat) (row : List Nat) (group : List (Nat × Nat)) : List Nat :=
  group.foldl
    (fun extra pair =>
      if pair.2 = dst ∨ pair.2 ∈ row then extra
      else if pair.2 ∈ extra then extra
      else extra ++ [pair.2])
    []

/-- Phase 3 for one destination. -/
def backEdges (alpha : ℚ) (b : Building) (group : List (Nat × Nat)) : Except Fault Building :=
  match group with
  | [] => pure b
  | (dst, _) :: _ => do
      let row ← b.graph.view.row dst
      let extra := extras dst row group
      if extra = [] then pure b
      else if row.length + extra.length ≤ b.graph.R then
        let g ← b.graph.appendRow dst row.length extra
        pure (b.update g)
      else
        let out := robustPrune env.dist env.times dst (row ++ extra) alpha (maxDegree p n) p.maxCandidates
        let g ← b.graph.installRow dst out
        pure (b.update g)

/-- One batch. -/
def batch (alpha : ℚ) (b : Building) (pts : List Nat) : Except Fault Building := do
  let (news, scratch) ← searchAll env p n alpha b pts
  let b ← installAll { b with scratch := scratch } news
  (groups news).foldlM (backEdges env p n alpha) b

/-- The batches of a pass: from `pos` on, the next one of `size` points. -/
def batches (alpha : ℚ) : Nat → Nat → Nat → Building → Except Fault Building
  | 0, _, _, _ => .error .diverged
  | fuel + 1, pos, size, b =>
      if pos < n then do
        let bs := min size (n - pos)
        let b ← batch env p n alpha b (((order env n).drop pos).take bs)
        batches alpha fuel (pos + bs) (min (maxBatch env p n) (size * 2)) b
      else pure b

def alphas : List ℚ := if p.twoPass then [1, p.alpha] else [p.alpha]

/-! ## The build -/

/-- The cleanup of one row: lists that used the slack are pruned. -/
def cleanRow (b : Building) (i : Nat) : Except Fault Building := do
  let row ← b.graph.view.row i
  if row.length ≤ maxDegree p n then pure b
  else
    let out := robustPrune env.dist env.times i row p.alpha (maxDegree p n) p.maxCandidates
    let g ← b.graph.installRow i out
    pure (b.update g)

/-- Rows of `R` slots from the first `R` of every row. -/
def compact (g : VamanaIndex) (R : Nat) : VamanaIndex :=
  if g.R ≠ R then
    { g with R := R, adj := (List.range g.n).flatMap fun i => (g.adj.drop (i * g.R)).take R }
  else g

/-- `VamanaIndex::build` from the random initialisation on. -/
def finish (g : VamanaIndex) : Except Fault Built := do
  let start : Building := ⟨g, ⟨VisitedSet.init, CandidateList.reset 0, []⟩, [g]⟩
  let b ← (alphas p).foldlM (fun b alpha => batches env p n alpha (n + 1) 0 1 b) start
  let b ← (List.range n).foldlM (cleanRow env p n) b
  pure ⟨compact b.graph (maxDegree p n), b.graph, b.passed⟩

/-- `VamanaIndex::build`; the fuel is that of the random draws. -/
def build (fuel : Nat) : Except Fault Built :=
  if n = 0 then .error (.thrown "Vamana build on empty data")
  else do
    let g ← initGraph env p n fuel
    finish env p n g

end VamanaBuild

end HybridSearch.Engine
