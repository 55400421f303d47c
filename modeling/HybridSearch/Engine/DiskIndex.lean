/-
# Engine.DiskIndex -- the graph on the disk and its search (disk_index.cc)

Every node has a record in the file: its vector, its degree, its neighbours.
Records are packed into blocks of 4 KB and never straddle one, or take whole
blocks of their own.  A search reads the blocks of the nodes it expands, except
for the nodes in the cache, and finds the record inside what it read.

The reads of a round go to one buffer, each to its own slot.  In the thread-pool
mode the order in which they complete is arbitrary.  `ip` and `adc` are the inner
product with the query and the distance its table gives a PQ code.
-/
import HybridSearch.Engine.BeamSearch
import HybridSearch.Engine.TopK
import HybridSearch.Engine.VisitedSet

namespace HybridSearch.Engine

open HybridSearch.Theory

set_option autoImplicit false

/-! ## The file -/

abbrev kBlock : Nat := 4096

/-- `disk_layout`: the bytes of a record, the nodes of a block and the blocks of a node. -/
def diskLayout (dim R : Nat) : Nat × Nat × Nat :=
  let recordBytes := u32 (dim * 4 + 4 + R * 4)
  if recordBytes ≤ kBlock then (recordBytes, kBlock / recordBytes, 1)
  else (recordBytes, 1, u32 (recordBytes + kBlock - 1) / kBlock)

/-- `disk_record_offset`.  Block 0 is the header. -/
def diskRecordOffset (id recordBytes nodesPerBlock blocksPerNode : Nat) : Nat :=
  if nodesPerBlock > 1 then
    u64 (kBlock + id / nodesPerBlock * kBlock + id % nodesPerBlock * recordBytes)
  else u64 (kBlock + id * blocksPerNode * kBlock)

structure DiskIndex where
  n : Nat
  dim : Nat
  R : Nat
  medoid : Nat
  recordBytes : Nat
  nodesPerBlock : Nat
  blocksPerNode : Nat
  file : Bytes
  /-- `pq_.M()`, and the codes. -/
  pqM : Nat
  codes : Bytes

/-- `cache_ids_` and `cache_data_`. -/
structure Cache where
  ids : List Nat
  data : Bytes

/-- Bytes in memory, by their offset from the start of an array. -/
abbrev Memory := Nat → UInt8

/-- A little-endian 32-bit word in memory. -/
def Memory.word (m : Memory) (i : Nat) : Nat :=
  (m i).toNat + (m (i + 1)).toNat * 2 ^ 8 + (m (i + 2)).toNat * 2 ^ 16 + (m (i + 3)).toNat * 2 ^ 24

/-- A position in the cache or in the buffer of the round. -/
inductive Ptr
  | cache (offset : Nat)
  | buffer (offset : Nat)
  deriving DecidableEq, Repr

structure IoRequest where
  /-- Where the bytes go. -/
  slot : Nat
  len : Nat
  off : Nat
  deriving DecidableEq, Repr

inductive IoMode
  | sequential
  /-- The order in which the reads of a round complete, given the reads. -/
  | threadPool (order : List IoRequest → List IoRequest)

/-- The order in which the reads of a round complete. -/
def IoMode.schedule : IoMode → List IoRequest → List IoRequest
  | .sequential, reqs => reqs
  | .threadPool order, reqs => if reqs.length > 1 then order reqs else reqs

/-- Every read of a round completes, once. -/
def IoMode.Lawful : IoMode → Prop
  | .sequential => True
  | .threadPool order => ∀ reqs, (order reqs).Perm reqs

/-- What a query gives: the inner product with a vector and the distance of a code. -/
structure DiskQuery where
  ip : Bytes → ℚ
  adc : Bytes → ℚ

structure VectorSearchOptions where
  k : Nat
  L : Nat
  beamWidth : Nat

structure VectorResult where
  hits : List ScoredDoc
  isPartial : Bool
  deriving DecidableEq

/-- The `thread_local` scratch that a search carries from round to round. -/
structure DiskScratch where
  visited : VisitedSet
  cands : CandidateList
  full : List ScoredDoc
  buf : Memory

namespace DiskIndex

variable (ix : DiskIndex)

def recordOffset (id : Nat) : Nat :=
  diskRecordOffset id ix.recordBytes ix.nodesPerBlock ix.blocksPerNode

def readOffset (id : Nat) : Nat := ix.recordOffset id / kBlock * kBlock

def readLen : Nat := u32 (ix.blocksPerNode * kBlock)

/-- Where the record of a node is in the cache. -/
def cached (cache : Cache) (id : Nat) : Option Nat :=
  let it := BinarySearch.lowerBound (fun i => decide (cache.ids.getD i 0 < id)) cache.ids.length 0
    cache.ids.length
  match cache.ids[it]? with
  | none => none
  | some found => if found = id then some (it * ix.recordBytes) else none

/-- The PQ distance of a node. -/
def pqDistance (q : DiskQuery) (id : Nat) : ℚ := q.adc ((ix.codes.drop (id * ix.pqM)).take ix.pqM)

/-! ## What a record says -/

def vector (record : Memory) : Bytes := (List.range (ix.dim * 4)).map record

def degree (record : Memory) : Nat := record.word (ix.dim * 4)

def neighbors (record : Memory) : List Nat :=
  (List.range (ix.degree record)).map fun j => record.word (ix.dim * 4 + 4 + j * 4)

/-! ## Search -/

/-- One node of the frontier: its pointer, and a read unless it is cached. -/
def request (cache : Cache) (acc : List Ptr × List IoRequest) (id : Nat) : List Ptr × List IoRequest :=
  match ix.cached cache id with
  | some offset => (acc.1 ++ [.cache offset], acc.2)
  | none =>
      let slot := acc.2.length * ix.readLen
      (acc.1 ++ [.buffer (slot + (ix.recordOffset id - ix.readOffset id))],
        acc.2 ++ [⟨slot, ix.readLen, ix.readOffset id⟩])

def requests (cache : Cache) (frontier : List Nat) : List Ptr × List IoRequest :=
  frontier.foldl (ix.request cache) ([], [])

/-- `execute`: a read of no bytes does not touch the file. -/
def execute (buf : Memory) (r : IoRequest) : Except Fault Memory :=
  if r.len = 0 ∨ r.off + r.len ≤ ix.file.length then
    .ok fun i => if r.slot ≤ i ∧ i < r.slot + r.len then ix.file.getD (r.off + (i - r.slot)) 0 else buf i
  else .error (.thrown "disk index read failed")

def deref (cache : Cache) (buf : Memory) : Ptr → Memory
  | .cache offset => fun i => cache.data.getD (offset + i) 0
  | .buffer offset => fun i => buf (offset + i)

/-- One neighbour of an expanded node. -/
def offer (q : DiskQuery) (s : DiskScratch) (nb : Nat) : Except Fault DiskScratch := do
  let (fresh, visited) ← s.visited.insert nb
  if fresh then pure { s with visited := visited, cands := (s.cands.insert nb (ix.pqDistance q nb)).2 }
  else pure { s with visited := visited }

/-- One node of the frontier, from its record. -/
def expandNode (cache : Cache) (q : DiskQuery) (s : DiskScratch) (f : Nat × Ptr) :
    Except Fault DiskScratch :=
  let record := deref cache s.buf f.2
  (ix.neighbors record).foldlM (ix.offer q)
    { s with full := s.full ++ [⟨f.1, q.ip (ix.vector record)⟩] }

def round (cache : Cache) (mode : IoMode) (q : DiskQuery) (W : Nat) (s : DiskScratch) :
    Except Fault DiskScratch := do
  let (frontier, cands) := s.cands.popFrontier W
  let (ptrs, reqs) := ix.requests cache frontier
  let buf ← (mode.schedule reqs).foldlM ix.execute s.buf
  (frontier.zip ptrs).foldlM (ix.expandNode cache q) { s with cands := cands, buf := buf }

/-- The loop, within its fuel. -/
def loop (cache : Cache) (mode : IoMode) (q : DiskQuery) (W : Nat) :
    Nat → DiskScratch → Deadline → Except Fault (DiskScratch × Deadline)
  | 0, _, _ => .error .diverged
  | fuel + 1, s, dl =>
      if s.cands.hasUnexpanded then do
        let s ← ix.round cache mode q W s
        let (fired, dl) := dl.expired
        if fired then pure (s, dl) else loop cache mode q W fuel s dl
      else pure (s, dl)

/-- One search, with the scratch and the deadline it leaves. -/
def search (cache : Cache) (mode : IoMode) (q : DiskQuery) (opts : VectorSearchOptions)
    (s : DiskScratch) (dl : Deadline) : Except Fault (VectorResult × DiskScratch × Deadline) := do
  let k := min opts.k ix.n
  let L := max opts.L k
  let W := max 1 opts.beamWidth
  let (_, visited) ← s.visited.clear.insert ix.medoid
  let cands := ((CandidateList.reset L).insert ix.medoid (ix.pqDistance q ix.medoid)).2
  let (s, dl) ← ix.loop cache mode q W (ix.n + 1) ⟨visited, cands, [], s.buf⟩ dl
  let top := s.full.foldl (fun t h => (t.push h.doc h.score).2) (TopK.empty k)
  pure (⟨top.takeSorted, dl.fired⟩, s, dl)

/-! ## Well-formed indexes -/

/-- The record of a node, as the file has it. -/
def record (id : Nat) : Memory := fun i => ix.file.getD (ix.recordOffset id + i) 0

/-- An index as the builder writes it; vectors and codes are arbitrary. -/
structure WellFormed : Prop where
  layout : (ix.recordBytes, ix.nodesPerBlock, ix.blocksPerNode) = diskLayout ix.dim ix.R
  /-- The bytes of a node's blocks are counted in 32 bits. -/
  sized : ix.dim * 4 + 4 + ix.R * 4 + kBlock ≤ 2 ^ 32
  count : ix.n < 2 ^ 32
  medoid : ix.medoid < ix.n
  degree : ∀ id < ix.n, ix.degree (ix.record id) ≤ ix.R
  neighbors : ∀ id < ix.n, ∀ nb ∈ ix.neighbors (ix.record id), nb < ix.n
  /-- The file holds the blocks of every node. -/
  present : ∀ id < ix.n, ix.readOffset id + ix.readLen ≤ ix.file.length

/-- The cache holds the records of its nodes, in the order of their ids. -/
structure CacheOk (cache : Cache) : Prop where
  sorted : cache.ids.Pairwise (· < ·)
  data : ∀ i, ∀ inside : i < cache.ids.length, ∀ j < ix.recordBytes,
    cache.data.getD (i * ix.recordBytes + j) 0 = ix.record cache.ids[i] j

/-- The graph of the index, with the distance that orders its candidates. -/
def graph (q : DiskQuery) : Graph where
  start := ix.medoid
  adj id := ix.neighbors (ix.record id)
  dist := ix.pqDistance q

end DiskIndex

end HybridSearch.Engine
