/-
# Engine.NodeWriter -- the disk index as it is built and opened (disk_build.cc, disk_index.cc)

`NodeWriter` puts the header into block 0 of the file and streams the records behind
it, a chunk of blocks at a time.  `DiskIndex::open` takes the layout from the header
and `read_node` finds a record in the blocks it reads.

The vectors are the bytes of their floats.  A write to a file puts zeros into a gap
before it; reads and writes of the file succeed where the bytes are there.  `passed`
records the file after every write.
-/
import HybridSearch.Engine.DiskIndex
import HybridSearch.Theory.Regions

namespace HybridSearch.Engine

open HybridSearch.Theory

set_option autoImplicit false

def kDiskMagic : Nat := 0x31584e4944534b48

structure DiskHeader where
  n : Nat
  dim : Nat
  R : Nat
  medoid : Nat
  recordBytes : Nat
  nodesPerBlock : Nat
  blocksPerNode : Nat

namespace DiskHeader

/-- The header of an index, with its layout. -/
def of (n dim R medoid : Nat) : DiskHeader :=
  let layout := diskLayout dim R
  ⟨n, dim, R, medoid, layout.1, layout.2.1, layout.2.2⟩

variable (h : DiskHeader)

/-- The words of the header: magic, version, fields. -/
def words : List Nat :=
  [kDiskMagic % 2 ^ 32, kDiskMagic / 2 ^ 32, 1, h.n, h.dim, h.R, h.medoid, h.recordBytes,
    h.nodesPerBlock, h.blocksPerNode]

/-- Block 0. -/
def block : Bytes :=
  storeWords (fun i => h.words.getD i 0) 10 ++ List.replicate (kBlock - 40) 0

end DiskHeader

/-! ## Memory and files -/

/-- `memcpy` into a buffer; past its end it is undefined. -/
def copyTo (buf : Bytes) (place : Nat) (src : Bytes) : Except Fault Bytes :=
  if place + src.length ≤ buf.length then .ok (Regions.write buf place src) else .error .undefined

/-- `memcpy` out of a buffer. -/
def copyFrom (buf : Bytes) (place len : Nat) : Except Fault Bytes :=
  if place + len ≤ buf.length then .ok (Regions.slice buf place len) else .error .undefined

/-- `pwrite_full`. -/
def pwriteFull (file buf : Bytes) (off : Nat) : Bytes :=
  Regions.write (file ++ List.replicate (off + buf.length - file.length) 0) off buf

/-- `pread_full`; the text of `errno` follows its message. -/
def preadFull (file : Bytes) (len off : Nat) : Except Fault Bytes :=
  if len = 0 then .ok []
  else if off + len ≤ file.length then .ok (Regions.slice file off len)
  else .error (.thrown "pread failed: ")

/-! ## Writing -/

structure NodeWriter where
  h : DiskHeader
  file : Bytes
  passed : List Bytes

namespace NodeWriter

def put (w : NodeWriter) (buf : Bytes) (off : Nat) : NodeWriter :=
  { w with file := pwriteFull w.file buf off, passed := w.passed ++ [pwriteFull w.file buf off] }

def create (n dim R medoid : Nat) : NodeWriter :=
  let h := DiskHeader.of n dim R medoid
  put ⟨h, [], []⟩ h.block 0

variable (w : NodeWriter)

def chunkNodes : Nat := u32 (w.h.nodesPerBlock * 8192)

def recordOffset (id : Nat) : Nat :=
  diskRecordOffset id w.h.recordBytes w.h.nodesPerBlock w.h.blocksPerNode

/-- One node of a chunk: its vector, its degree, its neighbours. -/
def putRecord (data : Nat → Bytes) (nbrs : Nat → List Nat) (first : Nat) (buf : Bytes) (i : Nat) :
    Except Fault Bytes := do
  let place := w.recordOffset i - first
  let buf ← copyTo buf place (data i)
  let buf ← copyTo buf (place + w.h.dim * 4) (le32 (nbrs i).length)
  copyTo buf (place + w.h.dim * 4 + 4) (storeWords (fun j => (nbrs i).getD j 0) (nbrs i).length)

/-- `write`: the nodes `[s, e)`. -/
def write (data : Nat → Bytes) (nbrs : Nat → List Nat) (s e : Nat) : Except Fault NodeWriter :=
  let first := w.recordOffset s
  let last := w.recordOffset (sub32 e 1)
  let stop := u64 (last + w.h.recordBytes + kBlock - 1) / kBlock * kBlock
  -- the difference wraps around: more bytes than a vector can hold
  if stop < first then .error (.thrown "std::length_error")
  else do
    let buf ← (List.range' s (e - s)).foldlM (w.putRecord data nbrs first)
      (List.replicate (stop - first) 0)
    pure (w.put buf first)

/-- All chunks, within the fuel of the loop. -/
def writeChunks (data : Nat → Bytes) (nbrs : Nat → List Nat) :
    Nat → Nat → NodeWriter → Except Fault NodeWriter
  | 0, _, _ => .error .diverged
  | fuel + 1, s, w =>
      if s < w.h.n then do
        let w' ← w.write data nbrs s (min w.h.n (u32 (s + w.chunkNodes)))
        writeChunks data nbrs fuel (u32 (s + w.chunkNodes)) w'
      else pure w

end NodeWriter

/-! ## Reading -/

namespace DiskIndex

/-- `DiskIndex::open` of `disk.index`; the codes come from files of their own. -/
def open_ (path : String) (file : Bytes) (pqM : Nat) (codes : Bytes) : Except Fault DiskIndex := do
  let h ← preadFull file kBlock 0
  if wordAt h 0 + wordAt h 1 * 2 ^ 32 ≠ kDiskMagic then
    .error (.thrown ("not a disk index: " ++ path))
  else
    .ok
      { n := wordAt h 3
        dim := wordAt h 4
        R := wordAt h 5
        medoid := wordAt h 6
        recordBytes := wordAt h 7
        nodesPerBlock := wordAt h 8
        blocksPerNode := wordAt h 9
        file := file
        pqM := pqM
        codes := codes }

/-- `read_node`: what was not read is undefined. -/
def readNode (ix : DiskIndex) (id : Nat) : Except Fault (Bytes × List Nat) := do
  let window ← preadFull ix.file ix.readLen (ix.readOffset id)
  let place := ix.recordOffset id - ix.readOffset id
  let vec ← copyFrom window place (ix.dim * 4)
  let deg ← copyFrom window (place + ix.dim * 4) 4
  let nb ← copyFrom window (place + ix.dim * 4 + 4) (wordAt deg 0 * 4)
  pure (vec, (List.range (wordAt deg 0)).map (wordAt nb))

end DiskIndex

end HybridSearch.Engine
