/-
# Engine.DiskBuild -- building the index on the disk (disk_build.cc, `build_disk_index`)

The codes of the points are trained and encoded, then the graph is written.  A single
graph over all points is built or loaded, and its rows are streamed to the file.  More
points than fit in memory are partitioned: every point joins the partitions of its
nearest centroids, the graph of each partition is spilled to a file of its own, and the
merge streams the spilled records in id order, a chunk of blocks at a time.

The tasks of a parallel loop write parts of their own and are taken in order.  Files are
the bytes that were written to them; what was read short is not used.
-/
import HybridSearch.Engine.NodeWriter
import HybridSearch.Engine.ProductQuantizer
import HybridSearch.Engine.VamanaBuild

namespace HybridSearch.Engine

open HybridSearch.Theory

set_option autoImplicit false

/-- The points that are indexed: their bytes, and what is computed from their floats. -/
structure Points where
  bytes : Nat → Bytes
  floats : Floats
  /-- `l2sq` of two points. -/
  dist : Nat → Nat → ℚ
  /-- `l2sq` of the mean of some points and a point. -/
  toMean : List Nat → Nat → ℚ
  times : ℚ → ℚ → ℚ
  /-- `uint32_t` of a double; any value where it is out of range. -/
  toUint32 : ℚ → Nat
  toSize : ℚ → Nat
  /-- The draws of `mt19937_64`, by its seed. -/
  mt : Nat → Nat → Nat

structure DiskBuildParams where
  vamana : VamanaBuildParams
  pqM : Fin (2 ^ 32)
  pqTrainSample : Nat
  pqIters : Nat
  partitions : Nat
  buildRamGb : ℚ
  overlap : Nat
  kmeansSample : Nat
  kmeansIters : Nat
  /-- The path of a saved graph and its bytes, unless the path is empty. -/
  prebuiltGraph : Option (String × Bytes)

/-! ## Files of words -/

/-- `fread` of words: all of them, and what follows. -/
def freadWords (count : Nat) (file : Bytes) : Option (List Nat × Bytes) :=
  if file.length < 4 * count then none
  else some ((List.range count).map (wordAt file), file.drop (4 * count))

/-- `fwrite` of words. -/
def fwriteWords (words : List Nat) : Bytes := storeWords (fun i => words.getD i 0) words.length

namespace VamanaIndex

def kGraphMagic : Nat := 0x3148504152474d56

/-- `save`; the dimension is that of the vectors. -/
def save (g : VamanaIndex) (dim : Nat) : Bytes :=
  fwriteWords [kGraphMagic % 2 ^ 32, kGraphMagic / 2 ^ 32] ++ fwriteWords [g.n, dim, g.R, g.medoid] ++
    fwriteWords g.deg ++ fwriteWords g.adj

/-- The fields of a saved graph: the dimension, and the graph. -/
def readGraph (file : Bytes) : Option (Nat × VamanaIndex) := do
  let (magic, file) ← freadWords 2 file
  if magic.getD 0 0 + magic.getD 1 0 * 2 ^ 32 ≠ kGraphMagic then none
  else
    let (hdr, file) ← freadWords 4 file
    let (deg, file) ← freadWords (hdr.getD 0 0) file
    let (adj, _) ← freadWords (hdr.getD 0 0 * hdr.getD 2 0) file
    pure (hdr.getD 1 0, ⟨hdr.getD 0 0, hdr.getD 2 0, hdr.getD 3 0, deg, adj⟩)

/-- `load`, for `n` vectors. -/
def load (path : String) (file : Bytes) (n dim : Nat) : Except Fault VamanaIndex :=
  match readGraph file with
  | none => .error (.thrown ("bad graph file " ++ path))
  | some (own, g) =>
      if n < g.n ∨ own ≠ dim then .error (.thrown ("graph does not match vectors: " ++ path)) else .ok g

end VamanaIndex

namespace DiskBuild

variable (P : Points) (n : Nat) (dim : Fin (2 ^ 32)) (p : DiskBuildParams)

/-! ## Samples -/

/-- `sample_ids`: `m` ids drawn without repetition, in order. -/
def sampleIds (rng : Nat → Nat) (m : Nat) : List Nat :=
  let drawn := (List.range (min m n)).foldl
    (fun ids i => VamanaBuild.swapAt ids i (i + rng i % (n - i))) (List.range n)
  (drawn.take (min m n)).mergeSort fun a b => decide (a ≤ b)

/-- `gather`. -/
def gather (data : Floats) (dim : Nat) (ids : List Nat) : Floats := fun t =>
  data (ids.getD (t / dim) 0 * dim + t % dim)

/-- The codes of all points. -/
def pqCodes : Except Fault Bytes :=
  let ids := sampleIds n (P.mt (p.vamana.seed ^^^ 0x5051)) p.pqTrainSample
  match ProductQuantizer.train (fun m => P.mt (u64 (p.vamana.seed + 7919 * m)))
      (gather P.floats dim.val ids) ids.length dim p.pqM p.pqIters with
  | .error what => .error (.thrown what)
  | .ok pq => .ok ((List.range n).flatMap fun i =>
      (List.range p.pqM.val).map (pq.encode (P.floats.shift (i * dim.val))))

/-- How many partitions. -/
def partitionCount : Except Fault Nat :=
  let parts := max 1 p.partitions
  if p.prebuiltGraph.isSome ∧ (parts ≠ 1 ∨ 0 < p.buildRamGb) then
    .error (.thrown "prebuilt_graph requires a single partition")
  else if 0 < p.buildRamGb then
    let perPoint : ℚ := (dim.val : ℚ) * 4 + (p.vamana.R : ℚ) * 4 * 2 + 64
    let cap : ℚ := p.buildRamGb * 10 ^ 9 / perPoint
    .ok (if n ≤ cap then 1 else P.toUint32 ⌈(p.overlap : ℚ) * n / cap⌉)
  else .ok parts

/-! ## Writing in chunks -/

/-- The chunks of the file; `rows` gives the lists of the nodes `[s, e)`. -/
def writeRows {σ : Type} (rows : σ → Nat → Nat → Except Fault (List (List Nat) × σ)) :
    Nat → Nat → σ → NodeWriter → Except Fault NodeWriter
  | 0, _, _, _ => .error .diverged
  | fuel + 1, s, state, w =>
      if s < w.h.n then do
        let e := min w.h.n (u32 (s + w.chunkNodes))
        let (lists, state) ← rows state s e
        let w' ← w.write P.bytes (fun i => lists.getD (i - s) []) s e
        writeRows rows fuel (u32 (s + w.chunkNodes)) state w'
      else pure w

/-! ## A single graph -/

/-- What the build of one graph over all points reads. -/
def whole : BuildData where
  dist := P.dist
  toMean := P.toMean (List.range n)
  times := P.times
  toUint32 := P.toUint32
  toSize := P.toSize
  rng := P.mt p.vamana.seed

def graphRows (g : VamanaIndex) (_ : Unit) (s e : Nat) : Except Fault (List (List Nat) × Unit) := do
  let lists ← (List.range' s (e - s)).mapM g.view.row
  pure (lists, ())

/-- The graph of a single partition: built, or loaded. -/
def singleGraph (fuel : Nat) : Except Fault VamanaIndex :=
  match p.prebuiltGraph with
  | none => do
      let built ← VamanaBuild.build (whole P n p) p.vamana n fuel
      pure built.index
  | some (path, file) => VamanaIndex.load path file n dim.val

def single (fuel : Nat) : Except Fault NodeWriter := do
  let g ← singleGraph P n dim p fuel
  if g.R ≠ p.vamana.R then .error (.thrown "prebuilt graph has a different R")
  else writeRows P (graphRows g) (n + 1) 0 () (NodeWriter.create n dim.val p.vamana.R g.medoid)

/-! ## Partitions -/

/-- The partitions of a point: its nearest centroids. -/
def labels (centroids : Floats) (parts overlap i : Nat) : List Nat :=
  Kmeans.nearestCentroids (P.floats.shift (i * dim.val)) centroids parts dim.val overlap

/-- The points of every partition, as they are pushed. -/
def members (labels : Nat → List Nat) (parts : Nat) : List (List Nat) :=
  (List.range n).foldl (fun ms i => (labels i).foldl (fun ms c => ms.modify c (· ++ [i])) ms)
    (List.replicate parts [])

/-- What the build of the graph of the points `ids` reads, gathered. -/
def gathered (ids : List Nat) (seed : Nat) : BuildData where
  dist i j := P.dist (ids.getD i 0) (ids.getD j 0)
  toMean i := P.toMean ids (ids.getD i 0)
  times := P.times
  toUint32 := P.toUint32
  toSize := P.toSize
  rng := P.mt seed

def partitionParams (c : Nat) : VamanaBuildParams :=
  { p.vamana with seed := u64 (p.vamana.seed + 1000003 * (c + 1)) }

/-- The record of one point of a partition, from a buffer of `R + 1` words. -/
def spillRecord (ids : List Nat) (g : VamanaIndex) (file : Bytes) (i : Nat) : Except Fault Bytes := do
  let row ← g.view.row i
  if p.vamana.R < row.length then throw .undefined
  let out ← row.mapM (at? ids)
  pure (file ++ fwriteWords (row.length :: out))

/-- The spilled graph of a partition. -/
def spill (fuel c : Nat) (ids : List Nat) : Except Fault Bytes :=
  if 2 ≤ ids.length then do
    let q := partitionParams p c
    let built ← VamanaBuild.build (gathered P ids q.seed) q ids.length fuel
    (List.range ids.length).foldlM (spillRecord p ids built.index) []
  else .ok (ids.flatMap fun _ => fwriteWords [0])

/-! ## The merge -/

/-- A spilled graph being read: its points, its cursor, what was not read yet. -/
structure Spill where
  ids : List Nat
  cursor : Nat
  file : Bytes

/-- The lists of the chunk that starts at `s`. -/
structure Merging where
  files : List Spill
  merged : List (List Nat)

def spillRead (count : Nat) (file : Bytes) : Except Fault (List Nat × Bytes) :=
  match freadWords count file with
  | none => .error (.thrown "spill read")
  | some read => .ok read

/-- One record, appended to the list of its point. -/
def readRecord (s g : Nat) (f : Spill) (merged : List (List Nat)) : Except Fault (Spill × List (List Nat)) := do
  let (d, file) ← spillRead 1 f.file
  let old ← at? merged (sub32 g s)
  if d.getD 0 0 = 0 then pure (⟨f.ids, f.cursor + 1, file⟩, merged)
  else
    let (ids, file) ← spillRead (d.getD 0 0) file
    pure (⟨f.ids, f.cursor + 1, file⟩, merged.set (sub32 g s) (old ++ ids))

/-- The records of one partition that are below `e`, within the fuel of the loop. -/
def drain (s e : Nat) : Nat → Spill → List (List Nat) → Except Fault (Spill × List (List Nat))
  | 0, _, _ => .error .diverged
  | fuel + 1, f, merged =>
      match f.ids[f.cursor]? with
      | none => pure (f, merged)
      | some g =>
          if g < e then do
            let (f, merged) ← readRecord s g f merged
            drain s e fuel f merged
          else pure (f, merged)

def drainAll (s e : Nat) : List Spill → List (List Nat) → Except Fault (List Spill × List (List Nat))
  | [], merged => pure ([], merged)
  | f :: rest, merged => do
      let (f, merged) ← drain s e (f.ids.length + 1) f merged
      let (rest, merged) ← drainAll s e rest merged
      pure (f :: rest, merged)

/-- Every other neighbour once, in first-seen order. -/
def firstSeen (g : Nat) (m : List Nat) : List Nat :=
  m.foldl (fun uniq v => if v ≠ g ∧ v ∉ uniq then uniq ++ [v] else uniq) []

/-- The list that is written: pruned where it is too long. -/
def out (g : Nat) (m : List Nat) : List Nat :=
  let uniq := firstSeen g m
  if p.vamana.R < uniq.length then
    robustPrune P.dist P.times g uniq p.vamana.alpha p.vamana.R p.vamana.maxCandidates
  else uniq

/-- One chunk of the merge; the lists of the chunk before it are cleared. -/
def mergeRows (m : Merging) (s e : Nat) : Except Fault (List (List Nat) × Merging) := do
  let cleared := List.replicate (sub32 e s) [] ++ m.merged.drop (sub32 e s)
  let (files, merged) ← drainAll s e m.files cleared
  pure ((List.range' s (e - s)).map fun g => out P p g (merged.getD (g - s) []), ⟨files, merged⟩)

/-- The partitions from the centroids of a sample. -/
def partition (parts overlap : Nat) : Except Fault (List (List Nat)) :=
  let ids := sampleIds n (P.mt (p.vamana.seed ^^^ 0x4b4d)) p.kmeansSample
  match Kmeans.kmeans (P.mt p.vamana.seed) (gather P.floats dim.val ids) ids.length dim.val
      ⟨parts, p.kmeansIters, .randomPoints⟩ with
  | .error what => .error (.thrown what)
  | .ok found => .ok (members n (labels P dim found.centroids parts overlap) parts)

def partitioned (fuel parts overlap : Nat) : Except Fault NodeWriter := do
  let ms ← partition P n dim p parts overlap
  let files ← ms.zipIdx.mapM fun m => spill P p fuel m.2 m.1
  let w := NodeWriter.create n dim.val p.vamana.R (findMedoid (P.toMean (List.range n)) n)
  writeRows P (mergeRows P p) (n + 1) 0
    ⟨(ms.zip files).map fun f => ⟨f.1, 0, f.2⟩, List.replicate w.chunkNodes []⟩ w

end DiskBuild

/-- What a build leaves: `disk.index` and the bytes of `pq_codes.bin` behind its header. -/
structure DiskBuilt where
  disk : NodeWriter
  codes : Bytes

/-- `build_disk_index`; the fuel is that of the random draws. -/
def buildDiskIndex (P : Points) (n : Nat) (dim : Fin (2 ^ 32)) (p : DiskBuildParams) (fuel : Nat) :
    Except Fault DiskBuilt := do
  let codes ← DiskBuild.pqCodes P n dim p
  let parts ← DiskBuild.partitionCount P n dim p
  let disk ← if parts = 1 then DiskBuild.single P n dim p fuel
    else DiskBuild.partitioned P n dim p fuel parts (min p.overlap parts)
  pure ⟨disk, codes⟩

end HybridSearch.Engine
