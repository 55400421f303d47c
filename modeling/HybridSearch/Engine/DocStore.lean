/-
# Engine.DocStore -- the compressed passage store

`DocStoreWriter` cuts the passages into blocks of consecutive ordinals; each
block is `[u32 count][u32 end offsets][texts]`, compressed on its own when the
build has zstd.  `DocStore.open` maps the file back, and `DocStore.text` finds
the block of an ordinal, decompresses it into a thread-local buffer unless the
buffer already holds it, and cuts the text out.

zstd is not part of the repository.  `Zstd` is what the store relies on; whether
one `ZSTD_decompress` fails, and what it then leaves in the destination buffer,
is an argument of the call that makes it.  `docstore.idx` holds fixed-width
records and is kept as the list of them.

* `blockOf_block`: what is decompressed is what `compress_block` packed;
* `cut_rawBlock`: the offsets cut every text out of its block;
* `Written.locate`: `upper_bound` finds the block of every ordinal.
-/
import HybridSearch.Engine.Machine
import HybridSearch.Theory.Arena

namespace HybridSearch.Engine

open HybridSearch.Theory

set_option autoImplicit false

/-- libzstd, as far as the store relies on it. -/
structure Zstd where
  compress : Nat → Bytes → Bytes
  decompress : Bytes → Bytes
  /-- `ZSTD_getFrameContentSize`; `none` for an error or an unknown size. -/
  contentSize : Bytes → Option Nat
  restores : ∀ level raw, decompress (compress level raw) = raw
  sized : ∀ level raw, contentSize (compress level raw) = some raw.length

def kMagicZstd : Nat := 0x5A445348
def kMagicRaw : Nat := 0x52445348

/-! ## The writer -/

namespace DocStore

structure Entry where
  off : Nat
  len : Nat
  first : Nat
  deriving DecidableEq, Repr

/-- `docstore.bin` and the records of `docstore.idx`. -/
structure Files where
  bin : Bytes
  idx : List Entry
  deriving DecidableEq, Repr

end DocStore

/-- `haveZstd` is `HS_HAVE_ZSTD` of the build that writes. -/
structure DocStoreWriter where
  haveZstd : Bool
  level : Nat
  bin : Bytes
  idx : List DocStore.Entry
  offset : Nat

namespace DocStoreWriter

def create (haveZstd : Bool) (level : Nat) : DocStoreWriter where
  haveZstd := haveZstd
  level := level
  bin := le32 (if haveZstd then kMagicZstd else kMagicRaw)
  idx := []
  offset := 4

/-- The end offsets of the texts, as the `uint32_t` accumulator steps over them. -/
def endOffsets (last : Nat) : List Bytes → List Nat
  | [] => []
  | t :: rest => u32 (last + u32 t.length) :: endOffsets (u32 (last + u32 t.length)) rest

def rawBlock (texts : List Bytes) : Bytes :=
  le32 (u32 texts.length) ++ (endOffsets 0 texts).flatMap le32 ++ texts.flatten

def compressBlock (Z : Zstd) (haveZstd : Bool) (texts : List Bytes) (level : Nat) : Bytes :=
  if haveZstd then Z.compress level (rawBlock texts) else rawBlock texts

def appendBlock (w : DocStoreWriter) (c : Bytes) (firstOrdinal : Nat) : DocStoreWriter :=
  { w with
    bin := w.bin ++ c
    idx := w.idx ++ [⟨w.offset, u32 c.length, firstOrdinal⟩]
    offset := w.offset + c.length }

def finish (w : DocStoreWriter) : DocStore.Files := ⟨w.bin, w.idx⟩

/-- Every block compressed and appended, each under the number of documents before it. -/
def appendAll (Z : Zstd) (w : DocStoreWriter) (ordinal : Nat) : List (List Bytes) → DocStoreWriter
  | [] => w
  | texts :: rest =>
      appendAll Z (w.appendBlock (compressBlock Z w.haveZstd texts w.level) (u32 ordinal))
        (ordinal + texts.length) rest

end DocStoreWriter

/-! ## The reader -/

/-- `memcpy` of a word out of a buffer. -/
def loadU32 (b : Bytes) (pos : Nat) : Except Fault Nat :=
  if pos + 4 ≤ b.length then
    .ok (wordAt (b.drop pos) 0)
  else .error .undefined

/-- `std::string::substr`. -/
def substr (b : Bytes) (pos count : Nat) : Except Fault Bytes :=
  if pos ≤ b.length then .ok ((b.drop pos).take count)
  else .error (.thrown "basic_string::substr")

/-- A failed decompression: the bytes it leaves in the destination buffer. -/
abbrev Failure := Nat → UInt8

/-- The thread's one-block cache. -/
structure BlockCache where
  cachedStore : Nat
  cachedBlock : Nat
  block : Bytes
  deriving DecidableEq, Repr

/-- `cached_store = 0`, `cached_block = SIZE_MAX`, an empty buffer. -/
def BlockCache.initial : BlockCache := ⟨0, 2 ^ 64 - 1, []⟩

structure DocStore where
  idx : List DocStore.Entry
  numDocs : Nat
  compressed : Bool
  data : Bytes
  id : Nat

namespace DocStore

/-- The bytes of a block, out of the mapped file.  The second component is what the buffer
holds afterwards, `none` when it has not been touched. -/
def blockOf (Z : Zstd) (compressed : Bool) (data : Bytes) (e : Entry) (failure : Option Failure) :
    Except Fault Bytes × Option Bytes :=
  let c := (data.drop e.off).take e.len
  if compressed then
    match Z.contentSize c with
    | none => (.error (.thrown "docstore: bad frame"), none)
    | some sz =>
        match failure with
        | some left =>
            (.error (.thrown "docstore: decompress failed"), some ((List.range sz).map left))
        | none => (.ok (Z.decompress c), some (Z.decompress c))
  else (.ok c, some c)

/-- `haveZstd` is `HS_HAVE_ZSTD` of the build that reads; `id` is drawn from `g_store_ids`. -/
def «open» (Z : Zstd) (haveZstd : Bool) (files : Files) (id : Nat) (failure : Option Failure) :
    Except Fault DocStore := do
  let magic ← loadU32 files.bin 0
  if magic ≠ kMagicZstd ∧ magic ≠ kMagicRaw then throw (.thrown "docstore.bin: bad magic")
  let compressed := decide (magic = kMagicZstd)
  if ¬ haveZstd ∧ compressed then
    throw (.thrown "docstore is zstd-compressed but this build has no zstd")
  match files.idx.getLast? with
  | none => pure ⟨files.idx, 0, compressed, files.bin, id⟩
  | some e =>
      let block ← (blockOf Z compressed files.bin e failure).1
      let cnt ← loadU32 block 0
      pure ⟨files.idx, e.first + cnt, compressed, files.bin, id⟩

/-- `std::upper_bound` over the first ordinals: how many entries start at or before `ordinal`. -/
def upperBound (idx : List Entry) (ordinal : Nat) : Nat :=
  (idx.takeWhile fun e => ¬ ordinal < e.first).length

/-- Where text `i` of the buffer begins: the end of the text before it. -/
def beginOffset (block : Bytes) (i : Nat) : Except Fault Nat :=
  if i > 0 then loadU32 block (4 + u32 (4 * (i - 1))) else pure 0

/-- The text of `ordinal` out of the buffer, when `first` is the block's first ordinal. -/
def cut (block : Bytes) (first ordinal : Nat) : Except Fault Bytes := do
  let n ← loadU32 block 0
  let i := sub32 ordinal first
  let «end» ← loadU32 block (4 + u32 (4 * i))
  let «begin» ← beginOffset block i
  let base := 4 + 4 * n
  substr block (base + «begin») (sub32 «end» «begin»)

/-- `DocStore::text`, with the thread's cache before and after. -/
def text (Z : Zstd) (s : DocStore) (cache : BlockCache) (ordinal : Nat)
    (failure : Option Failure) : Except Fault Bytes × BlockCache :=
  if s.numDocs ≤ ordinal then (.error (.thrown "docstore: ordinal out of range"), cache)
  else
    match upperBound s.idx ordinal with
    | 0 => (.error .undefined, cache)
    | bi + 1 =>
        match s.idx[bi]? with
        | none => (.error .undefined, cache)
        | some e =>
            if cache.cachedStore ≠ s.id ∨ cache.cachedBlock ≠ bi then
              match blockOf Z s.compressed s.data e failure with
              | (.error fault, left) => (.error fault, { cache with block := left.getD cache.block })
              | (.ok block, _) => (cut block e.first ordinal, ⟨s.id, bi, block⟩)
            else (cut cache.block e.first ordinal, cache)

end DocStore

/-! ## The layout of a block -/

theorem sub32_add {a b : Nat} (fits : a + b < 2 ^ 32) : sub32 (a + b) a = b := by
  have small : a % 2 ^ 32 = a := Nat.mod_eq_of_lt (by omega)
  rw [sub32, u32, small, show a + b + (2 ^ 32 - a) = b + 2 ^ 32 by omega, Nat.add_mod_right,
    Nat.mod_eq_of_lt (by omega)]

theorem loadU32_le32 {front back : Bytes} {x pos : Nat} (place_eq : front.length = pos)
    (fits : x < 2 ^ 32) : loadU32 (front ++ (le32 x ++ back)) pos = .ok x := by
  subst place_eq
  have word : wordAt (le32 x ++ back) 0 = x := by
    have stored : wordAt (storeWords (fun _ => x) 1) 0 = x :=
      wordAt_storeWords (show 0 < 1 by decide) fits
    have one : storeWords (fun _ => x) 1 = le32 x := by simp [storeWords, List.range_succ]
    rw [one] at stored
    exact stored
  rw [loadU32, if_pos (by simp [le32]), List.drop_left, word]

namespace DocStoreWriter

theorem length_flatMap_le32 (words : List Nat) : (words.flatMap le32).length = 4 * words.length := by
  induction words with
  | nil => rfl
  | cons w rest ih =>
      rw [List.flatMap_cons, List.length_append, ih, List.length_cons]
      simp only [le32, List.length_cons, List.length_nil]
      omega

theorem length_endOffsets (last : Nat) (texts : List Bytes) :
    (endOffsets last texts).length = texts.length := by
  induction texts generalizing last with
  | nil => rfl
  | cons t rest ih => rw [endOffsets, List.length_cons, List.length_cons, ih]

/-- While nothing wraps, end offset `i` is where text `i` ends. -/
theorem endOffsets_getElem? {texts : List Bytes} {last i : Nat}
    (fits : last + texts.flatten.length < 2 ^ 32) (inside : i < texts.length) :
    (endOffsets last texts)[i]? = some (last + (texts.take (i + 1)).flatten.length) := by
  induction texts generalizing last i with
  | nil => exact absurd inside (Nat.not_lt_zero i)
  | cons t rest ih =>
      rw [List.flatten_cons, List.length_append] at fits
      have step : u32 (last + u32 t.length) = last + t.length := by
        rw [u32, u32, Nat.mod_eq_of_lt (by omega : t.length < 2 ^ 32), Nat.mod_eq_of_lt (by omega)]
      rw [endOffsets, step]
      cases i with
      | zero => simp
      | succ i =>
          rw [List.getElem?_cons_succ, ih (by omega) (Nat.lt_of_succ_lt_succ inside),
            List.take_succ_cons, List.flatten_cons, List.length_append, Nat.add_assoc]

/-- Word `i` of a sequence of words, loaded at its own address. -/
theorem loadU32_words {front back : Bytes} {words : List Nat} {i x pos : Nat}
    (found : words[i]? = some x) (fits : x < 2 ^ 32) (place_eq : front.length + 4 * i = pos) :
    loadU32 (front ++ (words.flatMap le32 ++ back)) pos = .ok x := by
  have inside : i < words.length := (List.getElem?_eq_some_iff.mp found).1
  have value : words[i] = x := (List.getElem?_eq_some_iff.mp found).2
  have split : words = words.take i ++ x :: words.drop (i + 1) := by
    rw [← value, List.getElem_cons_drop, List.take_append_drop]
  have whole : front ++ (words.flatMap le32 ++ back) =
      (front ++ (words.take i).flatMap le32) ++
        (le32 x ++ ((words.drop (i + 1)).flatMap le32 ++ back)) := by
    conv_lhs => rw [split]
    simp only [List.flatMap_append, List.flatMap_cons, List.append_assoc]
  rw [whole]
  refine loadU32_le32 ?_ fits
  rw [List.length_append, length_flatMap_le32, List.length_take]
  omega

theorem length_rawBlock (texts : List Bytes) :
    (rawBlock texts).length = 4 + 4 * texts.length + texts.flatten.length := by
  rw [rawBlock, List.length_append, List.length_append, length_flatMap_le32, length_endOffsets]
  rfl

theorem loadU32_rawBlock {texts : List Bytes} (fits : (rawBlock texts).length < 2 ^ 32) :
    loadU32 (rawBlock texts) 0 = .ok texts.length := by
  rw [length_rawBlock] at fits
  have count : u32 texts.length = texts.length := Nat.mod_eq_of_lt (by omega)
  rw [rawBlock, count, List.append_assoc]
  exact @loadU32_le32 [] _ _ _ rfl (by omega)

theorem loadU32_endOffset {texts : List Bytes} {i pos : Nat}
    (fits : (rawBlock texts).length < 2 ^ 32) (inside : i < texts.length) (place_eq : 4 + 4 * i = pos) :
    loadU32 (rawBlock texts) pos = .ok (texts.take (i + 1)).flatten.length := by
  rw [length_rawBlock] at fits
  have found : (endOffsets 0 texts)[i]? = some (0 + (texts.take (i + 1)).flatten.length) :=
    endOffsets_getElem? (by omega) inside
  rw [Nat.zero_add] at found
  have bound : (texts.take (i + 1)).flatten.length ≤ texts.flatten.length := by
    conv_rhs => rw [← List.take_append_drop (i + 1) texts, List.flatten_append, List.length_append]
    exact Nat.le_add_right _ _
  rw [rawBlock, List.append_assoc]
  exact loadU32_words found (by omega) (by simpa [le32] using place_eq)

theorem drop_rawBlock (texts : List Bytes) (i : Nat) :
    (rawBlock texts).drop (4 + 4 * texts.length + (texts.take i).flatten.length) =
      (texts.drop i).flatten := by
  have header : (le32 (u32 texts.length) ++ (endOffsets 0 texts).flatMap le32).length =
      4 + 4 * texts.length := by
    rw [List.length_append, length_flatMap_le32, length_endOffsets]
    rfl
  have body : texts.flatten = (texts.take i).flatten ++ (texts.drop i).flatten := by
    rw [← List.flatten_append, List.take_append_drop]
  rw [rawBlock, ← header, ← List.drop_drop, List.drop_left, body, List.drop_left]

end DocStoreWriter

theorem cut_eq {block : Bytes} {first ordinal n «end» «begin» : Nat}
    (count : loadU32 block 0 = .ok n)
    (ends : loadU32 block (4 + u32 (4 * sub32 ordinal first)) = .ok «end»)
    (begins : DocStore.beginOffset block (sub32 ordinal first) = .ok «begin») :
    DocStore.cut block first ordinal = substr block (4 + 4 * n + «begin») (sub32 «end» «begin») := by
  simp only [DocStore.cut, count, ends, begins, bind, Except.bind]

open DocStoreWriter in
/-- **The offsets cut every text out of its block.** -/
theorem cut_rawBlock {texts : List Bytes} {first i : Nat} {t : Bytes}
    (fits : (rawBlock texts).length < 2 ^ 32) (found : texts[i]? = some t)
    (ordinal : first + i < 2 ^ 32) : DocStore.cut (rawBlock texts) first (first + i) = .ok t := by
  have inside : i < texts.length := (List.getElem?_eq_some_iff.mp found).1
  have small : 4 + 4 * texts.length ≤ (rawBlock texts).length := by
    rw [length_rawBlock]
    exact Nat.le_add_right _ _
  have index : sub32 (first + i) first = i := sub32_add ordinal
  have ends : loadU32 (rawBlock texts) (4 + u32 (4 * i)) =
      .ok (texts.take (i + 1)).flatten.length :=
    loadU32_endOffset fits inside (by rw [u32, Nat.mod_eq_of_lt (by omega)])
  have begins : DocStore.beginOffset (rawBlock texts) i = .ok (texts.take i).flatten.length := by
    cases i with
    | zero => rfl
    | succ i =>
        rw [DocStore.beginOffset, if_pos (Nat.succ_pos i), Nat.add_sub_cancel]
        exact loadU32_endOffset fits (Nat.lt_of_succ_lt inside)
          (by rw [u32, Nat.mod_eq_of_lt (by omega)])
  have next : (texts.take (i + 1)).flatten.length = (texts.take i).flatten.length + t.length := by
    rw [List.take_add_one, found, List.flatten_append, List.length_append]
    simp
  have within : (texts.take (i + 1)).flatten.length ≤ texts.flatten.length := by
    conv_rhs => rw [← List.take_append_drop (i + 1) texts, List.flatten_append, List.length_append]
    exact Nat.le_add_right _ _
  have size := length_rawBlock texts
  have width : sub32 (texts.take (i + 1)).flatten.length (texts.take i).flatten.length =
      t.length := by
    rw [next] at within ⊢
    exact sub32_add (by omega)
  have rest : (texts.drop i).flatten.take t.length = t := by
    rw [List.drop_eq_getElem_cons inside, List.flatten_cons,
      (List.getElem?_eq_some_iff.mp found).2, List.take_left]
  have slice : substr (rawBlock texts) (4 + 4 * texts.length + (texts.take i).flatten.length)
      t.length = .ok t := by
    rw [substr, if_pos (by omega), drop_rawBlock, rest]
  rw [cut_eq (loadU32_rawBlock fits) (by rw [index]; exact ends) (by rw [index]; exact begins), width]
  exact slice

/-! ## What the writer leaves -/

namespace DocStoreWriter

variable (Z : Zstd)

/-- The index entries of blocks appended at `off`, under the ordinals from `ordinal` on. -/
def entries (haveZstd : Bool) (level off ordinal : Nat) : List (List Bytes) → List DocStore.Entry
  | [] => []
  | texts :: rest =>
      let c := compressBlock Z haveZstd texts level
      ⟨off, u32 c.length, u32 ordinal⟩ ::
        entries haveZstd level (off + c.length) (ordinal + texts.length) rest

variable {Z}

theorem appendAll_files (w : DocStoreWriter) (ordinal : Nat) (blocks : List (List Bytes)) :
    (appendAll Z w ordinal blocks).finish =
      ⟨w.bin ++ (blocks.map fun texts => compressBlock Z w.haveZstd texts w.level).flatten,
        w.idx ++ entries Z w.haveZstd w.level w.offset ordinal blocks⟩ := by
  induction blocks generalizing w ordinal with
  | nil => simp [appendAll, finish, entries]
  | cons texts rest ih =>
      rw [appendAll, ih]
      simp [appendBlock, entries]

theorem entries_getElem? {haveZstd : Bool} {level off ordinal bi : Nat} {blocks : List (List Bytes)}
    {texts : List Bytes} (found : blocks[bi]? = some texts) :
    (entries Z haveZstd level off ordinal blocks)[bi]? =
      some ⟨off + ((blocks.take bi).map fun texts => compressBlock Z haveZstd texts level).flatten.length,
        u32 (compressBlock Z haveZstd texts level).length,
        u32 (ordinal + (blocks.take bi).flatten.length)⟩ := by
  induction blocks generalizing off ordinal bi with
  | nil => cases found
  | cons head rest ih =>
      cases bi with
      | zero =>
          cases found
          simp [entries]
      | succ bi =>
          rw [entries, List.getElem?_cons_succ, ih found]
          simp [Nat.add_assoc]

/-- **`upper_bound` finds the block of every ordinal.** -/
theorem locate {haveZstd : Bool} {level off ordinal o : Nat} {blocks : List (List Bytes)} {t : Bytes}
    (ordinals : ∀ i < blocks.length, ordinal + (blocks.take i).flatten.length < 2 ^ 32)
    (atLeast : ordinal ≤ o) (found : blocks.flatten[o - ordinal]? = some t) :
    ∃ bi texts, blocks[bi]? = some texts ∧
      DocStore.upperBound (entries Z haveZstd level off ordinal blocks) o = bi + 1 ∧
      ∃ i, o = ordinal + (blocks.take bi).flatten.length + i ∧ texts[i]? = some t := by
  induction blocks generalizing off ordinal with
  | nil => cases found
  | cons head rest ih =>
      have first : u32 ordinal = ordinal :=
        Nat.mod_eq_of_lt (by simpa using ordinals 0 (Nat.succ_pos _))
      have later : ∀ i < rest.length,
          ordinal + head.length + (rest.take i).flatten.length < 2 ^ 32 := by
        intro i inside
        have := ordinals (i + 1) (Nat.succ_lt_succ inside)
        rw [List.take_succ_cons, List.flatten_cons, List.length_append] at this
        omega
      rw [List.flatten_cons] at found
      have taken : ¬ o < ordinal := Nat.not_lt.mpr atLeast
      by_cases here : o - ordinal < head.length
      · rw [List.getElem?_append_left here] at found
        refine ⟨0, head, rfl, ?_, o - ordinal, by simp; omega, found⟩
        rw [DocStore.upperBound, entries, first, List.takeWhile_cons_of_pos (by simpa using taken)]
        cases rest with
        | nil => rfl
        | cons next rest =>
            have beyond : u32 (ordinal + head.length) = ordinal + head.length :=
              Nat.mod_eq_of_lt (by simpa using later 0 (Nat.succ_pos _))
            have before : o < ordinal + head.length := by omega
            rw [entries, beyond, List.takeWhile_cons_of_neg (by simpa using before)]
            rfl
      · rw [List.getElem?_append_right (Nat.le_of_not_lt here)] at found
        obtain ⟨bi, texts, block, upper, i, place_eq, inBlock⟩ :=
          @ih (off + (compressBlock Z haveZstd head level).length) _ later (by omega)
            (by rw [← Nat.sub_sub]; exact found)
        refine ⟨bi + 1, texts, block, ?_, i, ?_, inBlock⟩
        · rw [DocStore.upperBound, entries, first, List.takeWhile_cons_of_pos (by simpa using taken),
            List.length_cons]
          exact congrArg (· + 1) upper
        · rw [place_eq, List.take_succ_cons, List.flatten_cons, List.length_append]
          omega

end DocStoreWriter

open DocStoreWriter

/-- A store as the writer leaves it: any texts in any cut into blocks, at least one document a
block, every block below 2^32 bytes raw and packed, every block's first ordinal a `uint32_t`. -/
structure Written (Z : Zstd) where
  haveZstd : Bool
  level : Nat
  blocks : List (List Bytes)
  nonempty : ∀ texts ∈ blocks, texts ≠ []
  small : ∀ texts ∈ blocks, (rawBlock texts).length < 2 ^ 32 ∧
    (compressBlock Z haveZstd texts level).length < 2 ^ 32
  ordinals : ∀ i < blocks.length, (blocks.take i).flatten.length < 2 ^ 32

namespace Written

variable {Z : Zstd} (d : Written Z)

def files : DocStore.Files := (appendAll Z (create d.haveZstd d.level) 0 d.blocks).finish

/-- The texts, by ordinal. -/
def texts : List Bytes := d.blocks.flatten

/-- The store `open` builds over the files. -/
def opened (id : Nat) : DocStore where
  idx := d.files.idx
  numDocs := d.texts.length
  compressed := d.haveZstd
  data := d.files.bin
  id := id

theorem files_eq : d.files =
    ⟨le32 (if d.haveZstd then kMagicZstd else kMagicRaw) ++
        (d.blocks.map fun texts => compressBlock Z d.haveZstd texts d.level).flatten,
      entries Z d.haveZstd d.level 4 0 d.blocks⟩ :=
  appendAll_files _ _ _

theorem length_idx : d.files.idx.length = d.blocks.length := by
  rw [files_eq]
  generalize (4 : Nat) = off, (0 : Nat) = ordinal
  induction d.blocks generalizing off ordinal with
  | nil => rfl
  | cons texts rest ih => exact congrArg (· + 1) (ih _ _)

variable {d} {bi : Nat} {texts : List Bytes} {e : DocStore.Entry}

theorem first_eq (block : d.blocks[bi]? = some texts) (entry : d.files.idx[bi]? = some e) :
    e.first = (d.blocks.take bi).flatten.length := by
  rw [files_eq, entries_getElem? block] at entry
  cases entry
  change u32 (0 + (d.blocks.take bi).flatten.length) = _
  rw [Nat.zero_add, u32]
  exact Nat.mod_eq_of_lt (d.ordinals bi (List.getElem?_eq_some_iff.mp block).1)

/-- An entry points at the packed bytes of its block. -/
theorem slice_block (block : d.blocks[bi]? = some texts) (entry : d.files.idx[bi]? = some e) :
    (d.files.bin.drop e.off).take e.len = compressBlock Z d.haveZstd texts d.level := by
  have mem : texts ∈ d.blocks := List.mem_of_getElem? block
  have packed : d.blocks.map (fun texts => compressBlock Z d.haveZstd texts d.level) =
      (d.blocks.take bi).map (fun texts => compressBlock Z d.haveZstd texts d.level) ++
        compressBlock Z d.haveZstd texts d.level ::
          (d.blocks.drop (bi + 1)).map fun texts => compressBlock Z d.haveZstd texts d.level := by
    have inside := (List.getElem?_eq_some_iff.mp block).1
    have place_eq := (List.getElem?_eq_some_iff.mp block).2
    conv_lhs => rw [← List.take_append_drop bi d.blocks, List.drop_eq_getElem_cons inside, place_eq]
    rw [List.map_append, List.map_cons]
  rw [files_eq, entries_getElem? block] at entry
  cases entry
  have size : u32 (compressBlock Z d.haveZstd texts d.level).length =
      (compressBlock Z d.haveZstd texts d.level).length := Nat.mod_eq_of_lt (d.small texts mem).2
  rw [files_eq, packed, size, List.flatten_append, List.flatten_cons, ← List.append_assoc]
  rw [List.drop_left' (by rw [List.length_append]; rfl), List.take_left]

/-- **What a block decompresses to is what `compress_block` packed.** -/
theorem blockOf_block (block : d.blocks[bi]? = some texts) (entry : d.files.idx[bi]? = some e)
    (failure : Option Failure) :
    DocStore.blockOf Z d.haveZstd d.files.bin e failure =
      match d.haveZstd, failure with
      | true, some left => (.error (.thrown "docstore: decompress failed"),
          some ((List.range (rawBlock texts).length).map left))
      | _, _ => (.ok (rawBlock texts), some (rawBlock texts)) := by
  have slice := slice_block block entry
  rw [compressBlock] at slice
  cases zstd : d.haveZstd with
  | false =>
      rw [zstd, if_neg Bool.false_ne_true] at slice
      simp only [DocStore.blockOf, slice, if_neg Bool.false_ne_true]
  | true =>
      rw [zstd, if_pos rfl] at slice
      cases failure with
      | none => simp [DocStore.blockOf, slice, Z.sized, Z.restores]
      | some left => simp [DocStore.blockOf, slice, Z.sized]

variable (d)

theorem magic_eq : loadU32 d.files.bin 0 = .ok (if d.haveZstd then kMagicZstd else kMagicRaw) := by
  rw [files_eq]
  refine @loadU32_le32 [] _ _ _ rfl ?_
  split <;> decide

variable {d}

/-- The document count is the last block's first ordinal and its own count. -/
theorem numDocs_eq (last : d.files.idx.getLast? = some e) :
    ∃ texts, d.blocks[d.blocks.length - 1]? = some texts ∧
      d.files.idx[d.blocks.length - 1]? = some e ∧ e.first + texts.length = d.texts.length := by
  rw [List.getLast?_eq_getElem?, length_idx] at last
  have inside : d.blocks.length - 1 < d.blocks.length := by
    have := (List.getElem?_eq_some_iff.mp last).1
    rwa [length_idx] at this
  have block := List.getElem?_eq_getElem inside
  refine ⟨_, block, last, ?_⟩
  have split : d.blocks = d.blocks.take (d.blocks.length - 1) ++ [d.blocks[d.blocks.length - 1]] := by
    rw [← List.take_succ_eq_append_getElem inside, List.take_of_length_le (by omega)]
  have sizes := congrArg (fun blocks => blocks.flatten.length) split
  simp only [List.flatten_append, List.length_append, List.flatten_singleton] at sizes
  rw [first_eq block last, Written.texts, sizes]

/-- **What `open` returns over a written store.** -/
theorem open_eq {haveZstd : Bool} {id : Nat} {failure : Option Failure} {s : DocStore}
    (opened : DocStore.open Z haveZstd d.files id failure = .ok s) : s = d.opened id := by
  have isZstd : decide ((if d.haveZstd then kMagicZstd else kMagicRaw) = kMagicZstd) = d.haveZstd := by
    cases d.haveZstd <;> rfl
  have known : ¬ ((if d.haveZstd then kMagicZstd else kMagicRaw) ≠ kMagicZstd ∧
      (if d.haveZstd then kMagicZstd else kMagicRaw) ≠ kMagicRaw) := by
    cases d.haveZstd <;> decide
  unfold DocStore.open at opened
  simp only [magic_eq, bind, Except.bind, if_neg known, isZstd] at opened
  split at opened
  · cases opened
  · split at opened
    · rename_i noEntry
      have empty : d.blocks = [] := by
        rw [List.getLast?_eq_none_iff, ← List.length_eq_zero_iff, length_idx] at noEntry
        exact List.length_eq_zero_iff.mp noEntry
      cases opened
      rw [Written.opened, Written.texts, empty]
      rfl
    · rename_i e last
      obtain ⟨texts, block, entry, count⟩ := numDocs_eq last
      rw [blockOf_block block entry failure] at opened
      have small := (d.small texts (List.mem_of_getElem? block)).1
      cases zstd : d.haveZstd <;> cases failure <;>
        simp only [zstd, loadU32_rawBlock small] at opened <;> cases opened
      all_goals rw [count, Written.opened, zstd]

/-- `open` succeeds where the build can read the file and no decompression fails. -/
theorem open_ok {haveZstd : Bool} (readable : d.haveZstd = true → haveZstd = true) (id : Nat) :
    DocStore.open Z haveZstd d.files id none = .ok (d.opened id) := by
  have isZstd : decide ((if d.haveZstd then kMagicZstd else kMagicRaw) = kMagicZstd) = d.haveZstd := by
    cases d.haveZstd <;> rfl
  have known : ¬ ((if d.haveZstd then kMagicZstd else kMagicRaw) ≠ kMagicZstd ∧
      (if d.haveZstd then kMagicZstd else kMagicRaw) ≠ kMagicRaw) := by
    cases d.haveZstd <;> decide
  have can : ¬ (¬ haveZstd = true ∧ d.haveZstd = true) := fun refused => refused.1 (readable refused.2)
  unfold DocStore.open
  simp only [magic_eq, bind, Except.bind, if_neg known, isZstd, if_neg can]
  split
  · rename_i noEntry
    have empty : d.blocks = [] := by
      rw [List.getLast?_eq_none_iff, ← List.length_eq_zero_iff, length_idx] at noEntry
      exact List.length_eq_zero_iff.mp noEntry
    rw [Written.opened, Written.texts, empty]
    rfl
  · rename_i e last
    obtain ⟨texts, block, entry, count⟩ := numDocs_eq last
    have small := (d.small texts (List.mem_of_getElem? block)).1
    rw [blockOf_block block entry none]
    cases zstd : d.haveZstd <;>
      simp only [loadU32_rawBlock small, count, Written.opened, zstd] <;> rfl

/-- **Every ordinal has a block, and the block's buffer gives its text.** -/
theorem find_block {o : Nat} {t : Bytes} (ordinal : o < 2 ^ 32) (found : d.texts[o]? = some t) :
    ∃ bi texts e, d.blocks[bi]? = some texts ∧ DocStore.upperBound d.files.idx o = bi + 1 ∧
      d.files.idx[bi]? = some e ∧ DocStore.cut (rawBlock texts) e.first o = .ok t := by
  obtain ⟨bi, texts, block, upper, i, place_eq, inBlock⟩ :=
    @locate Z d.haveZstd d.level 4 0 o d.blocks t (by simpa using d.ordinals) (Nat.zero_le o) found
  have entry := @entries_getElem? Z d.haveZstd d.level 4 0 bi d.blocks texts block
  rw [show entries Z d.haveZstd d.level 4 0 d.blocks = d.files.idx by rw [files_eq]] at upper entry
  refine ⟨bi, texts, _, block, upper, entry, ?_⟩
  rw [Nat.zero_add] at place_eq
  rw [first_eq block entry, place_eq]
  exact cut_rawBlock (d.small texts (List.mem_of_getElem? block)).1 inBlock (place_eq ▸ ordinal)

end Written

end HybridSearch.Engine
