/-
# Engine.IndexBuilder -- building a lexical index (index_builder.cc)

`analyzeChunk` turns analysed documents into a `Batch`, `consume` feeds a batch
to the vocabulary and the in-memory postings, `flushRun` spills those to a
sorted run whenever they reach the cap, and `buildIndex` merges the runs term by
term, in bytewise term order, into the files of an index directory.

Analysis jobs are pure and are consumed in input order, so they appear as a list
of chunks.  A document is what the analyzer left of it: its id and its tokens.
-/
import HybridSearch.Engine.LexicalIndex
import HybridSearch.Engine.Vocab
import HybridSearch.Theory.CountingSort
import Mathlib.Data.List.Sort

namespace HybridSearch.Engine

open HybridSearch.Theory

set_option autoImplicit false

structure Doc where
  pid : Nat
  toks : List Bytes
  deriving DecidableEq, Repr

structure BuildOptions where
  codecs : List Codec
  /-- How many postings fit in memory before a run is spilled. -/
  cap : Nat
  modN : Nat
  modI : Nat
  deriving DecidableEq, Repr

/-! ## Analysis jobs -/

/-- Output of one analysis job. -/
structure Batch where
  pids : List Nat
  dls : List Nat
  /-- Unique terms per doc. -/
  nterms : List Nat
  /-- Term bytes. -/
  arena : Bytes
  /-- Per (doc, unique term). -/
  termLen : List Nat
  tfs : List Nat

namespace Batch

def empty : Batch where
  pids := []
  dls := []
  nterms := []
  arena := []
  termLen := []
  tfs := []

end Batch

/-- The maximal runs of equal tokens, with their lengths. -/
def runLengths : List Bytes → List (Bytes × Nat)
  | [] => []
  | t :: rest =>
      match runLengths rest with
      | (u, n) :: more => if u = t then (t, n + 1) :: more else (t, 1) :: (u, n) :: more
      | [] => [(t, 1)]

/-- `std::sort` of byte strings. -/
def sortTerms (toks : List Bytes) : List Bytes := toks.insertionSort fun a b => ¬ bytesLt b a

/-- The body of `analyze_chunk`'s loop, once the line is analysed. -/
def Batch.add (b : Batch) (doc : Doc) : Batch :=
  let uniq := runLengths (sortTerms doc.toks)
  { pids := b.pids ++ [doc.pid]
    dls := b.dls ++ [u32 doc.toks.length]
    nterms := b.nterms ++ [u32 uniq.length]
    arena := b.arena ++ uniq.flatMap (·.1)
    termLen := b.termLen ++ uniq.map (fun t => u32 t.1.length)
    tfs := b.tfs ++ uniq.map (fun t => u32 t.2) }

/-- `analyze_chunk`, with its partitioning by passage id. -/
def analyzeChunk (modN modI : Nat) (docs : List Doc) : Batch :=
  (docs.filter fun doc => modN = 0 ∨ doc.pid % modN = modI).foldl Batch.add Batch.empty

/-! ## In-memory postings and runs -/

/-- One entry of `r_term`, `r_doc`, `r_tf`. -/
structure Record where
  term : Nat
  doc : Nat
  tf : Nat
  deriving DecidableEq, Repr, Inhabited

structure Run where
  vocab : Nat
  offsets : List Nat
  data : Bytes
  deriving DecidableEq, Repr

/-- What `consume` and `flush_run` share. -/
structure Builder where
  vocab : Vocab
  pids : List Nat
  dls : List Nat
  recs : List Record
  runs : List Run

/-- The varints of one term's postings, gaps first, from the doc `prev`. -/
def putPostings (prev : Nat) : List Record → Bytes
  | [] => []
  | r :: rest => putVarint (Codec.gapM1 prev r.doc) ++ putVarint r.tf ++ putPostings r.doc rest

/-- `32u << 20`, the size past which `flush_run` empties its buffer. -/
def runBufferBytes : Nat := 33554432

/-- The write buffer of `flush_run`. -/
structure RunWriter where
  written : Bytes
  off : Nat
  buf : Bytes
  offsets : List Nat

namespace RunWriter

def empty : RunWriter where
  written := []
  off := 0
  buf := []
  offsets := []

/-- One term: note its offset, append its postings, write a full buffer out. -/
def put (w : RunWriter) (postings : Bytes) : RunWriter :=
  let offsets := w.offsets ++ [w.off + w.buf.length]
  let buf := w.buf ++ postings
  if runBufferBytes < buf.length then
    { written := w.written ++ buf, off := w.off + buf.length, buf := [], offsets := offsets }
  else { w with buf := buf, offsets := offsets }

def finish (w : RunWriter) (vocab : Nat) : Run where
  vocab := vocab
  offsets := w.offsets ++ [w.off + w.buf.length]
  data := w.written ++ w.buf

end RunWriter

/-- The run of the records: a counting sort by term, then the varints of every term. -/
def writeRun (vocab : Nat) (recs : List Record) : Run :=
  let start := CountingSort.starts Record.term recs vocab
  let sorted := CountingSort.scatter Record.term recs start
  let w := (List.range vocab).foldl (fun w t =>
    w.put (putPostings uint32Max ((List.range' (start t) (start (t + 1) - start t)).map sorted)))
    RunWriter.empty
  w.finish vocab

/-- `flush_run`. -/
def Builder.flushRun (b : Builder) : Except Fault Builder :=
  if b.recs = [] then .ok b
  -- `++start[r_term[i] + 1]` stays inside the array only for known terms
  else if ∀ r ∈ b.recs, r.term < b.vocab.size then
    .ok { b with runs := b.runs ++ [writeRun b.vocab.size b.recs], recs := [] }
  else .error .undefined

/-! ## Consuming a batch -/

/-- What `ti` and `ap` have not passed yet of a batch. -/
structure Rest where
  arena : Bytes
  termLen : List Nat
  tfs : List Nat

section Consume

variable (hash : Bytes → Nat) (cap : Nat)

/-- The inner loop body of `consume`: one unique term of document `ord`. -/
def consumeTerm (ord : Nat) (b : Builder) (rest : Rest) : Except Fault (Builder × Rest) :=
  match rest.termLen, rest.tfs with
  | len :: termLen, tf :: tfs =>
      if rest.arena.length < len then .error .undefined
      else do
        let added ← b.vocab.getOrAdd hash (rest.arena.take len)
        let b := { b with vocab := added.2, recs := b.recs ++ [⟨added.1, ord, tf⟩] }
        let b ← if cap ≤ b.recs.length then b.flushRun else pure b
        pure (b, ⟨rest.arena.drop len, termLen, tfs⟩)
  | _, _ => .error .undefined

def consumeTerms (ord : Nat) : Nat → Builder → Rest → Except Fault (Builder × Rest)
  | 0, b, rest => .ok (b, rest)
  | n + 1, b, rest => do
      let next ← consumeTerm hash cap ord b rest
      consumeTerms ord n next.1 next.2

def consumeDocs : List (Nat × Nat × Nat) → Builder → Rest → Except Fault Builder
  | [], b, _ => .ok b
  | (pid, dl, nterms) :: more, b, rest =>
      if 0xFFFFFFF0 ≤ b.pids.length then
        .error (.thrown "too many documents for 32-bit ordinals")
      else do
        let ord := u32 b.pids.length
        let b := { b with pids := b.pids ++ [pid], dls := b.dls ++ [dl] }
        let next ← consumeTerms hash cap ord nterms b rest
        consumeDocs more next.1 next.2

/-- `consume`. -/
def Builder.consume (b : Builder) (batch : Batch) : Except Fault Builder :=
  consumeDocs hash cap (batch.pids.zip (batch.dls.zip batch.nterms)) b
    ⟨batch.arena, batch.termLen, batch.tfs⟩

end Consume

def Builder.start : Builder where
  vocab := Vocab.init
  pids := []
  dls := []
  recs := []
  runs := []

/-- The reader pipeline, then the last spill. -/
def invert (hash : Bytes → Nat) (opt : BuildOptions) (chunks : List (List Doc)) :
    Except Fault Builder := do
  let b ← chunks.foldlM
    (fun b docs => b.consume hash opt.cap (analyzeChunk opt.modN opt.modI docs)) Builder.start
  b.flushRun

/-! ## Merging the runs -/

open VarintReader

/-- The doc a stored gap leads to, `prev + gap + 1` in 32 bits. -/
def nextDoc (prev gap : Nat) : Nat := u32 (u32 (prev + gap) + 1)

/-- The reading loop over one term's slice of a run. -/
def runPostings : Nat → Nat → Bytes → Except Fault (List Nat × List Nat)
  | 0, _, bytes => if bytes = [] then .ok ([], []) else .error .diverged
  | fuel + 1, prev, bytes =>
      if bytes = [] then .ok ([], [])
      else do
        let gap ← next32.run bytes
        let tf ← next32.run gap.2
        let more ← runPostings fuel (nextDoc prev gap.1) tf.2
        pure (nextDoc prev gap.1 :: more.1, tf.1 :: more.2)

/-- The bytes of term `t` in a run that knows it. -/
def Run.slice (run : Run) (t : Nat) : Bytes :=
  (run.data.drop (run.offsets.getD t 0)).take (run.offsets.getD (t + 1) 0 - run.offsets.getD t 0)

/-- The postings of term `t`, run by run. -/
def mergeTerm (t : Nat) : List Run → Except Fault (List Nat × List Nat)
  | [] => .ok ([], [])
  | run :: runs =>
      if run.vocab ≤ t then mergeTerm t runs
      else do
        let bytes := run.slice t
        let here ← runPostings bytes.length uint32Max bytes
        let more ← mergeTerm t runs
        pure (here.1 ++ more.1, here.2 ++ more.2)

/-! ## Score bounds -/

/-- A bound under construction: for each model, the largest scaled frequency so far. -/
structure Bounded where
  bi : BoundInfo
  x : Model → ℚ

namespace Bounded

def start : Bounded where
  bi := { BoundInfo.zero with minDl := uint32Max }
  x := fun _ => -1

/-- Take in a posting, or a whole block: a strictly better scaled frequency wins. -/
def absorb (acc next : Bounded) : Bounded where
  bi := {
    maxTf := max acc.bi.maxTf next.bi.maxTf
    minDl := min acc.bi.minDl next.bi.minDl
    bestTf := fun m => if acc.x m < next.x m then next.bi.bestTf m else acc.bi.bestTf m
    bestDl := fun m => if acc.x m < next.x m then next.bi.bestDl m else acc.bi.bestDl m }
  x := fun m => if acc.x m < next.x m then next.x m else acc.x m

end Bounded

/-- The arrays of the document statistics that scoring reads. -/
structure DocStats where
  bn : Model → Bm25Norms
  dls : List Nat
  norms : List Nat

namespace DocStats

/-- The document lengths and their codes, scored with the build parameters. -/
def build (avgdl : ℚ) (dls : List Nat) : DocStats where
  bn := fun m => { model := m, k1 := kDefaultK1, b := kDefaultB, avgdl := avgdl }
  dls := dls
  norms := dls.map SmallFloat.intToByte4

/-- What one posting contributes to a bound. -/
def ofPosting (ds : DocStats) (p : Nat × Nat) : Bounded :=
  let dl := ds.dls.getD p.1 0
  let norm := ds.norms.getD p.1 0
  { bi := { maxTf := p.2, minDl := dl, bestTf := fun _ => p.2, bestDl := fun _ => dl }
    x := fun m => bm25ScaledTf p.2 ((ds.bn m).inv dl norm) }

/-- `bound_of`. -/
def boundOf (ds : DocStats) (postings : List (Nat × Nat)) : Bounded :=
  postings.foldl (fun acc p => acc.absorb (ds.ofPosting p)) Bounded.start

/-- The bounds of the blocks of a posting list. -/
def blockBounds (ds : DocStats) (postings : List (Nat × Nat)) : List Bounded :=
  (List.range (blockCount postings.length)).map fun j => ds.boundOf (slice postings j)

/-- The bound of a whole term, merged from those of its blocks. -/
def termBound (ds : DocStats) (postings : List (Nat × Nat)) : Bounded :=
  (ds.blockBounds postings).foldl Bounded.absorb Bounded.start

end DocStats

/-! ## Writing one term -/

/-- `put_bound`. -/
def putBound (b : BoundInfo) : Bytes :=
  putVarint b.maxTf ++ putVarint b.minDl ++
    (putVarint (b.bestTf .lucene) ++ putVarint (b.bestDl .lucene) ++
      (putVarint (b.bestTf .textbook) ++ putVarint (b.bestDl .textbook)))

/-- One value per codec the index has. -/
def putPerCodec (has : Codec → Bool) (value : Codec → Nat) : Bytes :=
  codecs.flatMap fun c => if has c then putVarint (value c) else []

/-- A merged term: its string and its posting list. -/
structure Merged where
  str : Bytes
  docs : List Nat
  tfs : List Nat
  deriving DecidableEq, Repr

namespace Merged

variable (has : Codec → Bool) (ds : DocStats) (t : Merged)

def blocks : Nat := blockCount t.docs.length

def postings : List (Nat × Nat) := t.docs.zip t.tfs

/-- The collection frequency, summed in 64 bits. -/
def cf : Nat := u64 t.tfs.sum

/-- The bytes appended to the postings file of codec `c`. -/
def encoded (c : Codec) : Bytes :=
  encodeBlocks c (Codec.gapsM1 uint32Max t.docs) (Codec.tfsM1 t.tfs) t.blocks

/-- `boff[c][j]`. -/
def boff (c : Codec) (j : Nat) : Nat :=
  u32 (encodeBlocks c (Codec.gapsM1 uint32Max t.docs) (Codec.tfsM1 t.tfs) j).length

/-- The last doc of block `j`. -/
def lastDoc (j : Nat) : Nat :=
  t.docs.getD (min t.docs.length ((j + 1) * kBlockSize) - 1) 0

/-- What the lexicon gets for the term. -/
def lexEntry : Bytes :=
  putVarint t.str.length ++ (putVarint t.docs.length ++ (putVarint (sub64 t.cf t.docs.length) ++
    (putPerCodec has (fun c => (t.encoded c).length) ++ putBound (ds.termBound t.postings).bi)))

/-- The record of block `j`: differences to the block before it. -/
def blkEntry (j : Nat) : Bytes :=
  putVarint (sub32 (t.lastDoc j) (if j = 0 then 0 else t.lastDoc (j - 1))) ++
    (putPerCodec has (fun c => sub32 (t.boff c j) (if j = 0 then 0 else t.boff c (j - 1))) ++
      putBound (ds.boundOf (slice t.postings j)).bi)

/-- The block records: none for a term of a single block. -/
def blkEntries : Bytes :=
  if 1 < t.blocks then (List.range t.blocks).flatMap (t.blkEntry has ds) else []

/-- How many block records the term adds to `num_blocks`. -/
def storedBlocks : Nat := if 1 < t.blocks then t.blocks else 0

end Merged

/-- The checks of the merge loop on one term's postings. -/
def checkTerm (str : Bytes) (docs tfs : List Nat) : Except Fault Merged :=
  if docs = [] then .error (.thrown "term with no postings")
  else if docs.IsChain (· < ·) then .ok ⟨str, docs, tfs⟩
  else .error (.thrown "postings out of order")

/-- The merge loop over the terms in their output order. -/
def mergeTerms (vocab : Vocab) (runs : List Run) (order : List Nat) : Except Fault (List Merged) :=
  order.mapM fun t => do
    let lists ← mergeTerm t runs
    checkTerm (vocab.str t) lists.1 lists.2

/-- Lexicographic term order. -/
def termOrder (vocab : Vocab) : List Nat :=
  (List.range vocab.size).insertionSort fun a b => ¬ bytesLt (vocab.str b) (vocab.str a)

/-! ## The index directory -/

/-- `global_df.u32` of a shard. -/
def globalDfs (global : LexicalIndex) (terms : List Bytes) : Except Fault (List Nat) :=
  terms.mapM fun str => do
    match ← global.termId str with
    | none => throw (.thrown ("global stats index lacks term '" ++
        String.ofList (str.map fun b => Char.ofNat b.toNat) ++
        "': it must cover this shard's documents"))
    | some g => global.idfDf g

/-- Scoring statistics: the global ones when building a shard. -/
def scoreStats (global : Option LexicalIndex) (dls : List Nat) : Nat × Nat :=
  match global with
  | some g => (g.idfN, g.idfSumDl)
  | none => (dls.countP fun d => 0 < d, u64 dls.sum)

/-- The documents' statistics as the builder scores with them. -/
def buildStats (P : Platform) (global : Option LexicalIndex) (dls : List Nat) : DocStats :=
  let score := scoreStats global dls
  DocStats.build (P.avgdl score.1 score.2) dls

/-- The files of an index with the given documents and merged terms. -/
def indexFiles (has : Codec → Bool) (global : Option LexicalIndex) (pids : List Nat) (ds : DocStats)
    (terms : List Merged) (globalDf : Option (List Nat)) : IndexFiles where
  metaTxt := {
    format := "hs-lexical-1"
    stats := {
      numDocs := pids.length
      docsWithTerms := ds.dls.countP fun d => 0 < d
      sumDl := u64 ds.dls.sum
      numTerms := terms.length
      numPostings := u64 (terms.map fun t => t.docs.length).sum
      numBlocks := u64 (terms.map Merged.storedBlocks).sum }
    codecs := codecs.filter has
    blockSize := kBlockSize
    buildK1 := kDefaultK1
    buildB := kDefaultB
    globalStats := global.map fun _ => scoreStats global ds.dls }
  docids := pids
  doclen := ds.dls
  norms := ds.norms
  terms := terms.flatMap Merged.str
  lexicon := terms.flatMap (Merged.lexEntry has ds)
  blocks := terms.flatMap (Merged.blkEntries has ds)
  postings := fun c => if has c then some (terms.flatMap fun t => t.encoded c) else none
  globalDf := globalDf

/-- The end of `build_index`, from the merged terms on. -/
def writeIndex (P : Platform) (has : Codec → Bool) (global : Option LexicalIndex)
    (pids dls : List Nat) (terms : List Merged) : Except Fault IndexFiles :=
  let ds := buildStats P global dls
  match global with
  | none => .ok (indexFiles has global pids ds terms none)
  | some g => do
      let df ← globalDfs g (terms.map Merged.str)
      pure (indexFiles has global pids ds terms (some df))

/-- Inverting and merging: the documents and the merged terms in output order. -/
def mergeRuns (hash : Bytes → Nat) (opt : BuildOptions) (chunks : List (List Doc)) :
    Except Fault (Builder × List Merged) := do
  let b ← invert hash opt chunks
  let terms ← mergeTerms b.vocab b.runs (termOrder b.vocab)
  pure (b, terms)

/-- `build_index`. -/
def buildIndex (P : Platform) (hash : Bytes → Nat) (opt : BuildOptions)
    (global : Option LexicalIndex) (chunks : List (List Doc)) : Except Fault IndexFiles := do
  if opt.codecs = [] then throw (.thrown "build_index: no codecs")
  else do
    let built ← mergeRuns hash opt chunks
    writeIndex P (fun c => decide (c ∈ opt.codecs)) global built.1.pids built.1.dls built.2

end HybridSearch.Engine
