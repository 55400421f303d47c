/-
# Engine.LexicalIndex -- the lexical index and its reader (index.hpp, index.cc)

`IndexFiles` is an index directory: the byte streams whose layout the engine
works out by hand (`terms.bin`, `lexicon.bin`, `blocks.bin`, `postings.*`) are
byte strings, and the fixed-width arrays and the key=value pairs of `meta.txt`
are lists and fields.  `openIndex` is `LexicalIndex::open`, with its checks in
their order; `postings` and `termId` are the lookups of the opened index.

Floats are exact rationals, and the two statistics BM25 takes logarithms and
quotients of are parameters of the `Platform`.
-/
import HybridSearch.Engine.Bm25
import HybridSearch.Engine.Codec
import HybridSearch.Engine.Varint
import Mathlib.Data.List.Lex

namespace HybridSearch.Engine

open HybridSearch.Theory

set_option autoImplicit false

/-- What a build of the engine fixes. -/
structure Platform where
  /-- `HS_HAVE_NEON`. -/
  haveNeon : Bool
  /-- `bm25_idf(df, n_docs)`. -/
  bm25Idf : Nat → Nat → ℚ
  /-- `bm25_avgdl(sum_dl, n_docs)`. -/
  bm25Avgdl : Nat → Nat → ℚ

/-- The average length, 1 for a collection without terms. -/
def Platform.avgdl (P : Platform) (n sumDl : Nat) : ℚ := if n = 0 then 1 else P.bm25Avgdl sumDl n

/-- A byte string as the sequence of its unsigned characters. -/
abbrev bytesKey (s : Bytes) : List Nat := s.map UInt8.toNat

/-- `operator<` of strings: bytewise, a prefix before its extensions. -/
def bytesLt (a b : Bytes) : Prop := bytesKey a < bytesKey b

instance : DecidableRel bytesLt := fun a b => inferInstanceAs (Decidable (bytesKey a < bytesKey b))

/-- The codecs, in the order of the per-codec arrays. -/
def codecs : List Codec := [.vbyte, .bp128]

def codecName : Codec → String
  | .vbyte => "vbyte"
  | .bp128 => "bp128"

/-- The block count of a term as the reader computes it: 32-bit arithmetic. -/
def blockCount32 (df : Nat) : Nat := u32 (df + kBlockSize - 1) / kBlockSize

/-! ## The index -/

structure TermInfo where
  strOff : Nat
  strLen : Nat
  df : Nat
  cf : Nat
  postOff : Codec → Nat
  firstBlock : Nat
  bound : BoundInfo

structure BlockInfo where
  lastDoc : Nat
  off : Codec → Nat
  bound : BoundInfo

namespace BoundInfo

/-- The default-constructed bound. -/
def zero : BoundInfo where
  maxTf := 0
  minDl := 0
  bestTf := fun _ => 0
  bestDl := fun _ => 0

end BoundInfo

/-- The default-constructed block. -/
def BlockInfo.zero : BlockInfo where
  lastDoc := 0
  off := fun _ => 0
  bound := .zero

structure IndexStats where
  numDocs : Nat
  docsWithTerms : Nat
  sumDl : Nat
  numTerms : Nat
  numPostings : Nat
  numBlocks : Nat
  deriving DecidableEq, Repr

structure LexicalIndex where
  stats : IndexStats
  avgdl : ℚ
  buildK1 : ℚ
  buildB : ℚ
  idfN : Nat
  idfSumDl : Nat
  globalDf : List Nat
  docids : List Nat
  doclen : List Nat
  norms : List Nat
  termStrings : Bytes
  terms : List TermInfo
  blocks : List BlockInfo
  /-- The mapped postings file of each codec the index has. -/
  postingsOf : Codec → Option Bytes

/-! ## The directory -/

/-- The pairs of `meta.txt` that `open` reads. -/
structure MetaTxt where
  format : String
  stats : IndexStats
  codecs : List Codec
  blockSize : Nat
  buildK1 : ℚ
  buildB : ℚ
  /-- `global_docs_with_terms` and `global_sum_dl`, in shards only. -/
  globalStats : Option (Nat × Nat)

structure IndexFiles where
  metaTxt : MetaTxt
  docids : List Nat
  doclen : List Nat
  norms : List Nat
  terms : Bytes
  lexicon : Bytes
  blocks : Bytes
  postings : Codec → Option Bytes
  globalDf : Option (List Nat)

/-! ## Opening -/

open VarintReader

/-- An array indexed by the model. -/
def perModel (lucene textbook : Nat) : Model → Nat
  | .lucene => lucene
  | .textbook => textbook

theorem perModel_eta (f : Model → Nat) : perModel (f .lucene) (f .textbook) = f := by
  funext m
  cases m <;> rfl

def readBound : Reader Fault BoundInfo := do
  let maxTf ← next32
  let minDl ← next32
  let tfLucene ← next32
  let dlLucene ← next32
  let tfTextbook ← next32
  let dlTextbook ← next32
  pure {
    maxTf := maxTf
    minDl := minDl
    bestTf := perModel tfLucene tfTextbook
    bestDl := perModel dlLucene dlTextbook }

/-- The running values of the lexicon loop. -/
structure LexPos where
  strOff : Nat
  postOff : Codec → Nat
  nextBlock : Nat

namespace LexPos

def start : LexPos where
  strOff := 0
  postOff := fun _ => 0
  nextBlock := 0

end LexPos

/-- Add what `read` yields to the running value of each codec the index has. -/
def addPerCodec (has : Codec → Bool) (wrap : Nat → Nat) (read : Reader Fault Nat)
    (acc : Codec → Nat) : Reader Fault (Codec → Nat) :=
  codecs.foldlM (fun acc c =>
    if has c then do
      let n ← read
      pure (Function.update acc c (wrap (acc c + n)))
    else pure acc) acc

def readTerm (has : Codec → Bool) (p : LexPos) : Reader Fault (TermInfo × LexPos) := do
  let strLen ← next32
  let df ← next32
  let cf ← next
  let postOff ← addPerCodec has u64 next p.postOff
  let bound ← readBound
  let term := {
    strOff := p.strOff
    strLen := strLen
    df := df
    cf := u64 (cf + df)
    postOff := p.postOff
    firstBlock := p.nextBlock
    bound := bound }
  pure (term, {
    strOff := u64 (p.strOff + strLen)
    postOff := postOff
    nextBlock := if kBlockSize < df then u32 (p.nextBlock + blockCount32 df) else p.nextBlock })

def readTerms (has : Codec → Bool) : Nat → LexPos → Reader Fault (List TermInfo × LexPos)
  | 0, p => pure ([], p)
  | n + 1, p => do
      let first ← readTerm has p
      let more ← readTerms has n first.2
      pure (first.1 :: more.1, more.2)

/-- One block record, after the block `prev` of the same term. -/
def readBlock (has : Codec → Bool) (prev : BlockInfo) : Reader Fault BlockInfo := do
  let delta ← next32
  let off ← addPerCodec has u32 next32 prev.off
  let bound ← readBound
  pure { lastDoc := u32 (prev.lastDoc + delta), off := off, bound := bound }

/-- `blocks_[i] = b`. -/
def storeBlock (blocks : List BlockInfo) (i : Nat) (b : BlockInfo) : Reader Fault (List BlockInfo) :=
  if i < blocks.length then pure (blocks.set i b) else throw .undefined

/-- The blocks of one term, stored from index `i` on. -/
def readBlocksOf (has : Codec → Bool) :
    Nat → Nat → BlockInfo → List BlockInfo → Reader Fault (List BlockInfo)
  | 0, _, _, blocks => pure blocks
  | nb + 1, i, prev, blocks => do
      let b ← readBlock has prev
      let blocks ← storeBlock blocks (u32 i) b
      readBlocksOf has nb (i + 1) b blocks

def readAllBlocks (has : Codec → Bool) :
    List TermInfo → List BlockInfo → Reader Fault (List BlockInfo)
  | [], blocks => pure blocks
  | t :: terms, blocks =>
      if t.df ≤ kBlockSize then readAllBlocks has terms blocks
      else do
        let blocks ← readBlocksOf has (blockCount32 t.df) t.firstBlock .zero blocks
        readAllBlocks has terms blocks

/-- The postings files of the codecs in `meta.txt`, with the sizes the lexicon promises. -/
def mapPostings (dir : String) (files : IndexFiles) (has : Codec → Bool) (postOff : Codec → Nat) :
    Except Fault (Codec → Option Bytes) :=
  codecs.foldlM (fun mapped c =>
    if has c then
      let path := dir ++ "/postings." ++ codecName c
      match files.postings c with
      | none => .error (.thrown ("cannot open " ++ path))
      | some bytes =>
          if bytes.length = postOff c then .ok (Function.update mapped c (some bytes))
          else .error (.thrown (path ++ ": size does not match lexicon"))
    else .ok mapped) fun _ => none

/-- Throw unless the check passes. -/
def require (check : Bool) (message : String) : Except Fault Unit :=
  if check then .ok () else .error (.thrown message)

/-- The document arrays and `global_df.u32`, with the sizes `meta.txt` promises. -/
def readArrays (dir : String) (files : IndexFiles) : Except Fault (List Nat) := do
  let m := files.metaTxt
  require (files.docids.length = m.stats.numDocs) "docids.u64bin size mismatch"
  require (files.doclen.length = m.stats.numDocs) "doclen.u32 size mismatch"
  require (files.norms.length = m.stats.numDocs) "norms.u8 size mismatch"
  match m.globalStats, files.globalDf with
  | none, _ => pure []
  | some _, none => throw (.thrown ("cannot open " ++ dir ++ "/global_df.u32"))
  | some _, some df => do
      require (df.length = m.stats.numTerms) "global_df.u32 size mismatch"
      pure df

/-- The lexicon loop and the checks on where it ended. -/
def readLexicon (has : Codec → Bool) (files : IndexFiles) :
    Except Fault (List TermInfo × LexPos) := do
  let stats := files.metaTxt.stats
  let lex ← (readTerms has stats.numTerms .start).run files.lexicon
  require (lex.2 = [] ∧ lex.1.2.strOff = files.terms.length) "lexicon.bin: inconsistent"
  require (lex.1.2.nextBlock = stats.numBlocks) "lexicon/blocks count mismatch"
  pure lex.1

/-- The block loop, over an array of `num_blocks` blocks. -/
def readBlocks (has : Codec → Bool) (files : IndexFiles) (terms : List TermInfo) :
    Except Fault (List BlockInfo) := do
  let blk ← (readAllBlocks has terms (List.replicate files.metaTxt.stats.numBlocks .zero)).run
    files.blocks
  require (blk.2 = []) "blocks.bin: trailing bytes"
  pure blk.1

/-- `LexicalIndex::open`. -/
def openIndex (P : Platform) (dir : String) (files : IndexFiles) : Except Fault LexicalIndex := do
  let m := files.metaTxt
  require (m.format = "hs-lexical-1") (dir ++ ": unknown index format")
  require (m.blockSize = kBlockSize) "index block size mismatch"
  let idf := m.globalStats.getD (m.stats.docsWithTerms, m.stats.sumDl)
  let has := fun c => decide (c ∈ m.codecs)
  let globalDf ← readArrays dir files
  let lex ← readLexicon has files
  let blocks ← readBlocks has files lex.1
  let mapped ← mapPostings dir files has lex.2.postOff
  pure {
    stats := m.stats
    avgdl := P.avgdl idf.1 idf.2
    buildK1 := m.buildK1
    buildB := m.buildB
    idfN := idf.1
    idfSumDl := idf.2
    globalDf := globalDf
    docids := files.docids
    doclen := files.doclen
    norms := files.norms
    termStrings := files.terms
    terms := lex.1
    blocks := blocks
    postingsOf := mapped }

/-! ## Lookups -/

namespace LexicalIndex

def hasCodec (ix : LexicalIndex) (c : Codec) : Bool := (ix.postingsOf c).isSome

def termString (ix : LexicalIndex) (t : TermInfo) : Bytes :=
  (ix.termStrings.drop t.strOff).take t.strLen

/-- The binary search of `term_id` over `[lo, hi)`. -/
def searchTerm (ix : LexicalIndex) (term : Bytes) : Nat → Nat → Nat → Except Fault (Option Nat)
  | 0, lo, hi => if lo < hi then .error .diverged else .ok none
  | fuel + 1, lo, hi =>
      if lo < hi then do
        let mid := (lo + hi) / 2
        let t ← at? ix.terms mid
        let s := ix.termString t
        if s = term then pure (some mid)
        else if bytesLt s term then ix.searchTerm term fuel (mid + 1) hi
        else ix.searchTerm term fuel lo mid
      else .ok none

/-- `term_id`; `none` is the source's -1. -/
def termId (ix : LexicalIndex) (term : Bytes) : Except Fault (Option Nat) :=
  ix.searchTerm term ix.terms.length 0 ix.terms.length

/-- `idf_df`. -/
def idfDf (ix : LexicalIndex) (id : Nat) : Except Fault Nat :=
  if ix.globalDf = [] then do
    let t ← at? ix.terms id
    pure t.df
  else at? ix.globalDf id

/-- `std::vector::resize`. -/
def resize (xs : List Nat) (n : Nat) : List Nat := xs.take n ++ List.replicate (n - xs.length) 0

/-- `LexicalIndex::postings`. -/
def postings (P : Platform) (ix : LexicalIndex) (id : Nat) (c : Codec) :
    Except Fault (List Nat × List Nat) := do
  let t ← at? ix.terms id
  match ix.postingsOf c with
  | none => throw (.thrown "index has no postings for this codec")
  | some data =>
      let decoded ← (decodeBlocks P.haveNeon c (blockCount32 t.df) t.df uint32Max).run
        (data.drop (t.postOff c))
      pure (resize decoded.1.1 t.df, resize decoded.1.2 t.df)

/-- The doc that block `j` of a term continues. -/
def blockPrev (ix : LexicalIndex) (t : TermInfo) (j : Nat) : Except Fault Nat :=
  if j = 0 then .ok uint32Max
  else BlockInfo.lastDoc <$> at? ix.blocks (t.firstBlock + (j - 1))

/-- The byte offset of block `j` of a term: stored only for terms of several blocks. -/
def blockOff (ix : LexicalIndex) (t : TermInfo) (c : Codec) (j : Nat) : Except Fault Nat :=
  if 1 < blockCount32 t.df then (fun b => b.off c) <$> at? ix.blocks (t.firstBlock + j)
  else .ok 0

/-- What `Cursor::decode` does for block `j` of a term: the postings of that block
alone, from its offset and the last doc of the block before it. -/
def decodeBlockOf (P : Platform) (ix : LexicalIndex) (t : TermInfo) (c : Codec) (j : Nat) :
    Except Fault (List Nat × List Nat) := do
  match ix.postingsOf c with
  | none => throw .undefined
  | some data =>
      let prev ← ix.blockPrev t j
      let off ← ix.blockOff t c j
      let decoded ← (decodeBlock P.haveNeon c (min kBlockSize (t.df - j * kBlockSize)) prev).run
        (data.drop (t.postOff c + off))
      pure decoded.1

end LexicalIndex

end HybridSearch.Engine
