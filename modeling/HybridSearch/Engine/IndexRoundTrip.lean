/-
# Engine.IndexRoundTrip -- `open` reads back what `build_index` wrote

The lexicon and block writers and their readers are kept in lock step by
`Reads`: a bound, a per-codec row, a term entry, a block record, then the two
streams.  `termInfos` and `blockInfos` are the values the reader arrives at.

The reader counts blocks in 32 bits where the writer uses 64.  So `open`
succeeds exactly when every term has fewer than `2 ^ 32 - 127` postings and the
stored blocks number less than `2 ^ 32` (`openIndex_ok`, `openIndex_error`), and then recovers every
field of every term (`open_recovers`).
-/
import HybridSearch.Engine.IndexBuilder
import HybridSearch.Engine.CodecRoundTrip

namespace HybridSearch.Engine

open HybridSearch.Theory VarintReader

set_option autoImplicit false

/-! ## Bounds -/

namespace BoundInfo

/-- Every field fits the 32 bits it is stored in. -/
structure Fits (b : BoundInfo) : Prop where
  maxTf : b.maxTf < 2 ^ 32
  minDl : b.minDl < 2 ^ 32
  bestTf : ∀ m, b.bestTf m < 2 ^ 32
  bestDl : ∀ m, b.bestDl m < 2 ^ 32

end BoundInfo

theorem Bounded.fits_start : Bounded.start.bi.Fits where
  maxTf := by decide
  minDl := by decide
  bestTf := fun _ => Nat.two_pow_pos 32
  bestDl := fun _ => Nat.two_pow_pos 32

theorem Bounded.fits_absorb {acc next : Bounded} (fitsAcc : acc.bi.Fits) (fitsNext : next.bi.Fits) :
    (acc.absorb next).bi.Fits where
  maxTf := max_lt fitsAcc.maxTf fitsNext.maxTf
  minDl := lt_of_le_of_lt (min_le_left _ _) fitsAcc.minDl
  bestTf := fun m => by
    simp only [absorb]
    split
    · exact fitsNext.bestTf m
    · exact fitsAcc.bestTf m
  bestDl := fun m => by
    simp only [absorb]
    split
    · exact fitsNext.bestDl m
    · exact fitsAcc.bestDl m

theorem Bounded.fits_foldl {α : Type} {f : α → Bounded} {xs : List α} (each : ∀ x ∈ xs, (f x).bi.Fits)
    {acc : Bounded} (fitsAcc : acc.bi.Fits) :
    (xs.foldl (fun acc x => acc.absorb (f x)) acc).bi.Fits := by
  induction xs generalizing acc with
  | nil => exact fitsAcc
  | cons x xs ih =>
      exact ih (fun y mem => each y (List.mem_cons_of_mem _ mem))
        (Bounded.fits_absorb fitsAcc (each x List.mem_cons_self))

namespace DocStats

variable {ds : DocStats} (lengths : ∀ d ∈ ds.dls, d < 2 ^ 32)

include lengths

theorem fits_boundOf {postings : List (Nat × Nat)} (tfs : ∀ p ∈ postings, p.2 < 2 ^ 32) :
    (ds.boundOf postings).bi.Fits := by
  refine Bounded.fits_foldl (fun p mem => ?_) Bounded.fits_start
  have length : ds.dls.getD p.1 0 < 2 ^ 32 := by
    by_cases inside : p.1 < ds.dls.length
    · rw [List.getD_eq_getElem _ _ inside]
      exact lengths _ (List.getElem_mem inside)
    · rw [List.getD_eq_default _ _ (Nat.le_of_not_lt inside)]
      decide
  exact ⟨tfs p mem, length, fun _ => tfs p mem, fun _ => length⟩

theorem fits_termBound {postings : List (Nat × Nat)} (tfs : ∀ p ∈ postings, p.2 < 2 ^ 32) :
    (ds.termBound postings).bi.Fits := by
  refine Bounded.fits_foldl (f := id) (fun b mem => ?_) Bounded.fits_start
  obtain ⟨j, _, rfl⟩ := List.mem_map.mp mem
  exact fits_boundOf lengths fun p inSlice => tfs p (Codec.mem_of_mem_slice inSlice)

end DocStats

/-! ## Pieces of an entry -/

theorem reads_bound {b : BoundInfo} (fits : b.Fits) : Reads readBound (putBound b) b := by
  unfold readBound putBound
  rw [List.append_assoc, List.append_assoc]
  refine (reads_next32 fits.maxTf).bind ?_
  refine (reads_next32 fits.minDl).bind ?_
  refine (reads_next32 (fits.bestTf .lucene)).bind ?_
  refine (reads_next32 (fits.bestDl .lucene)).bind ?_
  refine (reads_next32 (fits.bestTf .textbook)).bind ?_
  refine (reads_next32 (fits.bestDl .textbook)).bind_last ?_
  rw [perModel_eta, perModel_eta]
  exact Reads.pure b

/-- The running values after a row of per-codec values. -/
def addRow (has : Codec → Bool) (wrap : Nat → Nat) (acc value : Codec → Nat) : Codec → Nat :=
  fun c => if has c then wrap (acc c + value c) else acc c

theorem reads_perCodec {has : Codec → Bool} {wrap : Nat → Nat} {read : Reader Fault Nat}
    {value : Codec → Nat} (each : ∀ c, has c → Reads read (putVarint (value c)) (value c))
    (acc : Codec → Nat) :
    Reads (addPerCodec has wrap read acc) (putPerCodec has value) (addRow has wrap acc value) := by
  have row : Reads (addPerCodec has wrap read acc) (putPerCodec has value)
      (codecs.foldl (fun acc c =>
        if has c then Function.update acc c (wrap (acc c + value c)) else acc) acc) :=
    Reads.foldlM (fun acc c _ => by
      by_cases present : has c = true
      · simp only [present, if_true]
        exact (each c present).bind_last (Reads.pure _)
      · simp only [present, if_false, Bool.false_eq_true]
        exact Reads.pure acc) acc
  have result : codecs.foldl (fun acc c =>
      if has c then Function.update acc c (wrap (acc c + value c)) else acc) acc =
        addRow has wrap acc value := by
    funext c
    cases c <;> cases v : has .vbyte <;> cases b : has .bp128 <;> simp [codecs, addRow, v, b]
  rw [result] at row
  exact row

/-! ## One term -/

theorem sub32_restores (a : Nat) {b : Nat} (fits : b < 2 ^ 32) :
    u32 (a + sub32 b a) = b := by
  simp only [u32, sub32]
  omega

theorem sub64_restores (a : Nat) {b : Nat} (fits : b < 2 ^ 64) :
    u64 (sub64 b a + a) = b := by
  simp only [u64, sub64]
  omega

namespace Merged

/-- The merge loop's guarantees for a term, with the sizes that 32-bit offsets need. -/
structure Storable (has : Codec → Bool) (t : Merged) : Prop where
  str : t.str.length < 2 ^ 32
  nonempty : t.docs ≠ []
  increasing : t.docs.Pairwise (· < ·)
  docsFit : ∀ d ∈ t.docs, d < 2 ^ 32
  lengths : t.docs.length = t.tfs.length
  tfsFit : ∀ x ∈ t.tfs, x < 2 ^ 32
  encoded : ∀ c, has c → (t.encoded c).length < 2 ^ 32

variable (has : Codec → Bool) (ds : DocStats) (t : Merged)

/-- The lexicon entry as the reader restores it at `p`. -/
def info (p : LexPos) : TermInfo where
  strOff := p.strOff
  strLen := t.str.length
  df := t.docs.length
  cf := t.cf
  postOff := p.postOff
  firstBlock := p.nextBlock
  bound := (ds.termBound t.postings).bi

/-- How many block records the reader expects of the term. -/
def expectedBlocks : Nat := if kBlockSize < t.docs.length then blockCount32 t.docs.length else 0

/-- The reader's running values after the term. -/
def advance (p : LexPos) : LexPos where
  strOff := u64 (p.strOff + t.str.length)
  postOff := addRow has u64 p.postOff fun c => (t.encoded c).length
  nextBlock := if kBlockSize < t.docs.length then u32 (p.nextBlock + blockCount32 t.docs.length)
    else p.nextBlock

/-- Block `j` as the reader restores it. -/
def blockInfo (j : Nat) : BlockInfo where
  lastDoc := t.lastDoc j
  off := fun c => if has c then t.boff c j else 0
  bound := (ds.boundOf (slice t.postings j)).bi

/-- The block record before block `j`. -/
def blockBefore (j : Nat) : BlockInfo := if j = 0 then .zero else t.blockInfo has ds (j - 1)

def blockInfos : List BlockInfo :=
  if 1 < t.blocks then (List.range t.blocks).map (t.blockInfo has ds) else []

end Merged

section Streams

variable {has : Codec → Bool} {ds : DocStats} (lengths : ∀ d ∈ ds.dls, d < 2 ^ 32)

theorem Merged.cf_lt (t : Merged) : t.cf < 2 ^ 64 := Nat.mod_lt _ (by decide)

theorem Merged.boff_lt (t : Merged) (c : Codec) (j : Nat) : t.boff c j < 2 ^ 32 :=
  Nat.mod_lt _ (by decide)

theorem Merged.tf_lt {t : Merged} (storable : t.Storable has) : ∀ p ∈ t.postings, p.2 < 2 ^ 32 :=
  fun _ mem => storable.tfsFit _ (List.of_mem_zip mem).2

theorem Merged.lastDoc_lt {t : Merged} (storable : t.Storable has) (j : Nat) :
    t.lastDoc j < 2 ^ 32 := by
  unfold lastDoc
  by_cases inside : min t.docs.length ((j + 1) * kBlockSize) - 1 < t.docs.length
  · rw [List.getD_eq_getElem _ _ inside]
    exact storable.docsFit _ (List.getElem_mem inside)
  · rw [List.getD_eq_default _ _ (Nat.le_of_not_lt inside)]
    exact Nat.two_pow_pos 32

include lengths

theorem reads_term {t : Merged} (storable : t.Storable has) (few : t.docs.length < 2 ^ 32)
    (p : LexPos) :
    Reads (readTerm has p) (t.lexEntry has ds) (t.info ds p, t.advance has p) := by
  unfold readTerm Merged.lexEntry
  refine (reads_next32 storable.str).bind ?_
  refine (reads_next32 few).bind ?_
  refine (reads_next (Nat.mod_lt _ (by decide))).bind ?_
  refine (reads_perCodec (fun c present => reads_next ?_) p.postOff).bind ?_
  · have := storable.encoded c present
    omega
  refine (reads_bound (DocStats.fits_termBound lengths (Merged.tf_lt storable))).bind_last ?_
  rw [sub64_restores _ t.cf_lt]
  exact Reads.pure _

/-- The lexicon entries of a list of terms. -/
def infos (has : Codec → Bool) (ds : DocStats) : LexPos → List Merged → List TermInfo
  | _, [] => []
  | p, t :: terms => t.info ds p :: infos has ds (t.advance has p) terms

theorem reads_terms {terms : List Merged} (storable : ∀ t ∈ terms, t.Storable has)
    (few : ∀ t ∈ terms, t.docs.length < 2 ^ 32) (p : LexPos) :
    Reads (readTerms has terms.length p) (terms.flatMap (Merged.lexEntry has ds))
      (infos has ds p terms, terms.foldl (fun p t => t.advance has p) p) := by
  induction terms generalizing p with
  | nil => exact Reads.pure _
  | cons t terms ih =>
      rw [List.flatMap_cons]
      refine (reads_term lengths (storable t List.mem_cons_self) (few t List.mem_cons_self) p).bind ?_
      refine (ih (fun u mem => storable u (List.mem_cons_of_mem _ mem))
        (fun u mem => few u (List.mem_cons_of_mem _ mem)) _).bind_last ?_
      exact Reads.pure _

/-- A term of `2 ^ 32` postings stops the reader at its `df`. -/
theorem fails_terms {front back : List Merged} {t : Merged} (storable : ∀ t ∈ front, t.Storable has)
    (few : ∀ t ∈ front, t.docs.length < 2 ^ 32) (str : t.str.length < 2 ^ 32)
    (large : 2 ^ 32 ≤ t.docs.length) (fits : t.docs.length < 2 ^ 64) (p : LexPos) :
    Fails (readTerms has (front ++ t :: back).length p)
      ((front ++ t :: back).flatMap (Merged.lexEntry has ds))
      (.thrown "varint: value exceeds 32 bits") := by
  induction front generalizing p with
  | nil =>
      rw [List.nil_append, List.flatMap_cons, List.length_cons]
      refine Fails.append (Fails.bind ?_ _) _
      exact Fails.after (reads_next32 str) (((fails_next32 large fits).bind _).append _)
  | cons u front ih =>
      rw [List.cons_append, List.flatMap_cons, List.length_cons]
      refine Fails.after
        (reads_term lengths (storable u List.mem_cons_self) (few u List.mem_cons_self) p) ?_
      exact (ih (fun u mem => storable u (List.mem_cons_of_mem _ mem))
        (fun u mem => few u (List.mem_cons_of_mem _ mem)) _).bind _

/-! ## The block records -/

theorem reads_blockRecord {t : Merged} (storable : t.Storable has) (j : Nat) :
    Reads (readBlock has (t.blockBefore has ds j)) (t.blkEntry has ds j) (t.blockInfo has ds j) := by
  unfold readBlock Merged.blkEntry
  have before : (t.blockBefore has ds j).lastDoc = if j = 0 then 0 else t.lastDoc (j - 1) := by
    unfold Merged.blockBefore
    split <;> rfl
  have last : u32 ((t.blockBefore has ds j).lastDoc +
      sub32 (t.lastDoc j) (if j = 0 then 0 else t.lastDoc (j - 1))) = t.lastDoc j := by
    rw [before]
    exact sub32_restores _ (Merged.lastDoc_lt storable j)
  have row : addRow has u32 (t.blockBefore has ds j).off
      (fun c => sub32 (t.boff c j) (if j = 0 then 0 else t.boff c (j - 1))) =
        (t.blockInfo has ds j).off := by
    funext c
    cases present : has c with
    | false =>
        by_cases first : j = 0
        · simp [addRow, Merged.blockInfo, Merged.blockBefore, present, first, BlockInfo.zero]
        · simp [addRow, Merged.blockInfo, Merged.blockBefore, present, first]
    | true =>
        by_cases first : j = 0
        · simp only [addRow, Merged.blockInfo, Merged.blockBefore, present, first, if_true,
            BlockInfo.zero]
          exact sub32_restores _ (t.boff_lt c 0)
        · simp only [addRow, Merged.blockInfo, Merged.blockBefore, present, if_neg first, if_true]
          exact sub32_restores _ (t.boff_lt c j)
  refine (reads_next32 (Nat.mod_lt _ (by decide))).bind ?_
  refine (reads_perCodec (fun c _ => reads_next32 (Nat.mod_lt _ (Nat.two_pow_pos 32))) _).bind ?_
  refine (reads_bound (DocStats.fits_boundOf lengths fun p mem =>
    Merged.tf_lt storable p (Codec.mem_of_mem_slice mem))).bind_last ?_
  rw [last, row]
  exact Reads.pure _

omit lengths in
/-- Storing after the `done` first blocks. -/
theorem reads_storeBlock {blocks : List BlockInfo} {r : Nat} (b : BlockInfo)
    (fits : blocks.length < 2 ^ 32) :
    Reads (storeBlock (blocks ++ List.replicate (r + 1) .zero) (u32 blocks.length) b) []
      (blocks ++ [b] ++ List.replicate r .zero) := by
  have inside : blocks.length < (blocks ++ List.replicate (r + 1) BlockInfo.zero).length := by
    rw [List.length_append, List.length_replicate]
    omega
  have stored : (blocks ++ List.replicate (r + 1) BlockInfo.zero).set blocks.length b =
      blocks ++ [b] ++ List.replicate r .zero := by
    rw [List.set_append_right _ _ (le_refl _), Nat.sub_self, List.replicate_succ, List.set_cons_zero,
      List.append_assoc, List.singleton_append]
  rw [storeBlock, u32, Nat.mod_eq_of_lt fits, if_pos inside, stored]
  exact Reads.pure _

theorem reads_blocksOf {t : Merged} (storable : t.Storable has) (m j r : Nat)
    (blocks : List BlockInfo) (fits : blocks.length + m < 2 ^ 32) :
    Reads
      (readBlocksOf has m blocks.length (t.blockBefore has ds j)
        (blocks ++ List.replicate (m + r) .zero))
      ((List.range' j m).flatMap (t.blkEntry has ds))
      (blocks ++ (List.range' j m).map (t.blockInfo has ds) ++ List.replicate r .zero) := by
  induction m generalizing j blocks with
  | zero =>
      rw [Nat.zero_add, List.range'_zero, List.map_nil, List.append_nil]
      exact Reads.pure _
  | succ m ih =>
      have here := @reads_storeBlock blocks (m + r) (t.blockInfo has ds j) (by omega)
      have rest := ih (j + 1) (blocks ++ [t.blockInfo has ds j])
        (by rw [List.length_append, List.length_singleton]; omega)
      have before : t.blockBefore has ds (j + 1) = t.blockInfo has ds j := if_neg (Nat.succ_ne_zero j)
      rw [List.length_append, List.length_singleton, before] at rest
      rw [List.range'_succ, List.flatMap_cons, List.map_cons, show m + 1 + r = m + r + 1 by omega]
      refine (reads_blockRecord lengths storable j).bind ?_
      rw [← List.nil_append (List.flatMap _ _)]
      refine here.bind ?_
      rw [show blocks ++ t.blockInfo has ds j :: (List.range' (j + 1) m).map (t.blockInfo has ds) =
        blocks ++ [t.blockInfo has ds j] ++ (List.range' (j + 1) m).map (t.blockInfo has ds) by simp]
      exact rest

omit lengths in
theorem one_lt_blockCount {n : Nat} : 1 < blockCount n ↔ kBlockSize < n := by
  simp only [blockCount, kBlockSize]
  omega

omit lengths in
/-- Below the wrap-around the reader counts the blocks the writer wrote. -/
theorem blockCount32_eq {n : Nat} (few : n + 127 < 2 ^ 32) : blockCount32 n = blockCount n := by
  rw [blockCount32, blockCount, u32, Nat.mod_eq_of_lt (by simp only [kBlockSize]; omega)]

theorem reads_allBlocks {terms : List Merged} (storable : ∀ t ∈ terms, t.Storable has)
    (few : ∀ t ∈ terms, t.docs.length + 127 < 2 ^ 32) (p : LexPos) (blocks : List BlockInfo)
    (aligned : p.nextBlock = blocks.length)
    (fits : blocks.length + (terms.map Merged.storedBlocks).sum < 2 ^ 32) :
    Reads
      (readAllBlocks has (infos has ds p terms)
        (blocks ++ List.replicate (terms.map Merged.storedBlocks).sum .zero))
      (terms.flatMap (Merged.blkEntries has ds))
      (blocks ++ terms.flatMap (Merged.blockInfos has ds)) := by
  induction terms generalizing p blocks with
  | nil =>
      simp only [List.map_nil, List.sum_nil, List.replicate_zero, List.flatMap_nil]
      exact Reads.pure _
  | cons t terms ih =>
      have storableT := storable t List.mem_cons_self
      have fewT := few t List.mem_cons_self
      have tail := ih (fun u mem => storable u (List.mem_cons_of_mem _ mem))
        (fun u mem => few u (List.mem_cons_of_mem _ mem)) (t.advance has p)
      rw [List.map_cons, List.sum_cons] at fits ⊢
      have df : (t.info ds p).df = t.docs.length := rfl
      have first : (t.info ds p).firstBlock = p.nextBlock := rfl
      rw [List.flatMap_cons, List.flatMap_cons, infos, readAllBlocks, df, first]
      by_cases single : t.docs.length ≤ kBlockSize
      · have one : ¬ 1 < t.blocks := by
          rw [Merged.blocks, one_lt_blockCount]
          omega
        have stored : t.storedBlocks = 0 := if_neg one
        rw [if_pos single, Merged.blkEntries, if_neg one, Merged.blockInfos, if_neg one, stored,
          Nat.zero_add, List.nil_append, List.nil_append]
        refine tail blocks ?_ (by omega)
        simp only [Merged.advance, if_neg (Nat.not_lt.mpr single), aligned]
      · have several : kBlockSize < t.docs.length := Nat.lt_of_not_le single
        have many : 1 < t.blocks := one_lt_blockCount.mpr several
        have stored : t.storedBlocks = t.blocks := if_pos many
        have count : blockCount32 t.docs.length = t.blocks := blockCount32_eq fewT
        rw [if_neg single, Merged.blkEntries, if_pos many, Merged.blockInfos, if_pos many, stored]
        rw [stored] at fits
        have own := @reads_blocksOf _ ds lengths _ storableT t.blocks 0
          (terms.map Merged.storedBlocks).sum blocks (by omega)
        rw [← List.range_eq_range', ← aligned] at own
        have next := tail (blocks ++ (List.range t.blocks).map (t.blockInfo has ds))
          (by
            simp only [Merged.advance, if_pos several, count, aligned, List.length_append,
              List.length_map, List.length_range, u32]
            exact Nat.mod_eq_of_lt (by omega))
          (by
            rw [List.length_append, List.length_map, List.length_range]
            omega)
        rw [count, ← List.append_assoc]
        exact own.bind next

end Streams

/-! ## The reader's running values -/

section Positions

variable {has : Codec → Bool}

theorem flatMap_length_lt {terms : List Merged} {f : Merged → Bytes} (few : terms.length < 2 ^ 32)
    (each : ∀ t ∈ terms, (f t).length < 2 ^ 32) : (terms.flatMap f).length < 2 ^ 64 := by
  have bound : (terms.flatMap f).length ≤ terms.length * (2 ^ 32 - 1) := by
    clear few
    induction terms with
    | nil => simp
    | cons t terms ih =>
        have here := each t List.mem_cons_self
        have rest := ih fun u mem => each u (List.mem_cons_of_mem _ mem)
        rw [List.flatMap_cons, List.length_append, List.length_cons]
        omega
  have : terms.length * (2 ^ 32 - 1) ≤ (2 ^ 32 - 1) * (2 ^ 32 - 1) :=
    Nat.mul_le_mul_right _ (by omega)
  omega

theorem strOff_advance (terms : List Merged) (p : LexPos)
    (fits : p.strOff + (terms.flatMap Merged.str).length < 2 ^ 64) :
    (terms.foldl (fun p t => t.advance has p) p).strOff =
      p.strOff + (terms.flatMap Merged.str).length := by
  induction terms generalizing p with
  | nil => rfl
  | cons t terms ih =>
      rw [List.flatMap_cons, List.length_append] at fits
      have here : (t.advance has p).strOff = p.strOff + t.str.length := Nat.mod_eq_of_lt (by omega)
      rw [List.foldl_cons, ih _ (by rw [here]; omega), here, List.flatMap_cons, List.length_append,
        Nat.add_assoc]

theorem postOff_advance (terms : List Merged) (p : LexPos) {c : Codec} (present : has c)
    (fits : p.postOff c + (terms.flatMap (Merged.encoded · c)).length < 2 ^ 64) :
    (terms.foldl (fun p t => t.advance has p) p).postOff c =
      p.postOff c + (terms.flatMap (Merged.encoded · c)).length := by
  induction terms generalizing p with
  | nil => rfl
  | cons t terms ih =>
      rw [List.flatMap_cons, List.length_append] at fits
      have here : (t.advance has p).postOff c = p.postOff c + (t.encoded c).length := by
        simp only [Merged.advance, addRow, present, if_true]
        exact Nat.mod_eq_of_lt (by omega)
      rw [List.foldl_cons, ih _ (by rw [here]; omega), here, List.flatMap_cons, List.length_append,
        Nat.add_assoc]

theorem nextBlock_advance (terms : List Merged) (p : LexPos) (fits : p.nextBlock < 2 ^ 32) :
    (terms.foldl (fun p t => t.advance has p) p).nextBlock =
      u32 (p.nextBlock + (terms.map Merged.expectedBlocks).sum) := by
  induction terms generalizing p with
  | nil => exact (Nat.mod_eq_of_lt fits).symm
  | cons t terms ih =>
      have here : (t.advance has p).nextBlock = u32 (p.nextBlock + t.expectedBlocks) := by
        simp only [Merged.advance, Merged.expectedBlocks]
        split
        · rfl
        · exact (Nat.mod_eq_of_lt fits).symm
      rw [List.foldl_cons, ih _ (by rw [here]; exact Nat.mod_lt _ (by decide)), here, List.map_cons,
        List.sum_cons, u32, Nat.mod_add_mod, Nat.add_assoc]

theorem infos_getElem? (ds : DocStats) (terms : List Merged) (p : LexPos) (i : Nat) :
    (infos has ds p terms)[i]? = terms[i]?.map fun t =>
      t.info ds ((terms.take i).foldl (fun p t => t.advance has p) p) := by
  induction terms generalizing p i with
  | nil => simp [infos]
  | cons t terms ih =>
      cases i with
      | zero => rfl
      | succ i =>
          rw [infos, List.getElem?_cons_succ, ih, List.getElem?_cons_succ, List.take_succ_cons,
            List.foldl_cons]

theorem length_infos (ds : DocStats) (terms : List Merged) (p : LexPos) :
    (infos has ds p terms).length = terms.length := by
  induction terms generalizing p with
  | nil => rfl
  | cons t terms ih => rw [infos, List.length_cons, ih, List.length_cons]

/-! ## Counting blocks in 32 bits -/

/-- No term's postings reach the wrap-around of the reader's block count, nor do
the stored blocks of all terms. -/
structure BlocksCounted (terms : List Merged) : Prop where
  term : ∀ t ∈ terms, t.docs.length + 127 < 2 ^ 32
  total : (terms.map Merged.storedBlocks).sum < 2 ^ 32

theorem expectedBlocks_eq {t : Merged} (few : t.docs.length + 127 < 2 ^ 32) :
    t.expectedBlocks = t.storedBlocks := by
  rw [Merged.expectedBlocks, Merged.storedBlocks, Merged.blocks, blockCount32_eq few]
  simp only [one_lt_blockCount]

/-- Past the wrap-around the reader expects no block of a term that has `2 ^ 25`. -/
theorem expectedBlocks_wrapped {t : Merged} (large : 2 ^ 32 ≤ t.docs.length + 127)
    (few : t.docs.length < 2 ^ 32) : t.expectedBlocks = 0 ∧ t.storedBlocks = 2 ^ 25 := by
  constructor
  · rw [Merged.expectedBlocks, blockCount32]
    split
    · simp only [u32, kBlockSize]
      omega
    · rfl
  · have several : 1 < t.blocks := one_lt_blockCount.mpr (by simp only [kBlockSize]; omega)
    rw [Merged.storedBlocks, if_pos several, Merged.blocks, blockCount]
    simp only [kBlockSize]
    omega

theorem storedBlocks_le {t : Merged} (few : t.docs.length < 2 ^ 32) : t.storedBlocks ≤ 2 ^ 25 := by
  have count : t.blocks ≤ 2 ^ 25 := by
    simp only [Merged.blocks, blockCount, kBlockSize]
    omega
  rw [Merged.storedBlocks]
  split
  · exact count
  · exact Nat.zero_le _

/-- The counts of the two sides differ by `2 ^ 25` for every wrapped term. -/
theorem sum_storedBlocks {terms : List Merged} (few : ∀ t ∈ terms, t.docs.length < 2 ^ 32) :
    (terms.map Merged.storedBlocks).sum = (terms.map Merged.expectedBlocks).sum +
      2 ^ 25 * terms.countP (fun t => decide (2 ^ 32 ≤ t.docs.length + 127)) := by
  induction terms with
  | nil => rfl
  | cons t terms ih =>
      rw [List.map_cons, List.sum_cons, List.map_cons, List.sum_cons, List.countP_cons,
        ih fun u mem => few u (List.mem_cons_of_mem _ mem)]
      by_cases large : 2 ^ 32 ≤ t.docs.length + 127
      · obtain ⟨expected, stored⟩ := expectedBlocks_wrapped large (few t List.mem_cons_self)
        rw [expected, stored, if_pos (decide_eq_true large)]
        omega
      · rw [expectedBlocks_eq (by omega), if_neg (by simpa using large)]
        omega

/-- **The block counts agree exactly when nothing wraps.** -/
theorem counts_agree_iff {terms : List Merged} (fewTerms : terms.length < 2 ^ 32)
    (few : ∀ t ∈ terms, t.docs.length < 2 ^ 32) :
    u32 (terms.map Merged.expectedBlocks).sum = u64 (terms.map Merged.storedBlocks).sum ↔
      BlocksCounted terms := by
  have sums := sum_storedBlocks few
  have small : (terms.map Merged.storedBlocks).sum < 2 ^ 64 := by
    have bound : (terms.map Merged.storedBlocks).sum ≤ terms.length * 2 ^ 25 := by
      rw [show terms.length = (terms.map Merged.storedBlocks).length from (List.length_map _).symm]
      refine List.sum_le_card_nsmul _ _ fun n mem => ?_
      obtain ⟨t, inTerms, rfl⟩ := List.mem_map.mp mem
      exact storedBlocks_le (few t inTerms)
    omega
  rw [u64, Nat.mod_eq_of_lt small]
  constructor
  · intro agree
    have below : (terms.map Merged.storedBlocks).sum < 2 ^ 32 := by
      rw [← agree]
      exact Nat.mod_lt _ (by decide)
    have whole : (terms.map Merged.expectedBlocks).sum < 2 ^ 32 := by omega
    rw [u32, Nat.mod_eq_of_lt whole] at agree
    have noneWraps : terms.countP (fun t => decide (2 ^ 32 ≤ t.docs.length + 127)) = 0 := by omega
    rw [List.countP_eq_zero] at noneWraps
    refine ⟨fun t mem => ?_, below⟩
    have := noneWraps t mem
    simp only [decide_eq_true_eq] at this
    omega
  · intro counted
    have same : terms.map Merged.expectedBlocks = terms.map Merged.storedBlocks :=
      List.map_congr_left fun t mem => expectedBlocks_eq (counted.term t mem)
    rw [same, u32, Nat.mod_eq_of_lt counted.total]

end Positions

/-! ## Opening the directory -/

section Open

variable (P : Platform) (dir : String) {has : Codec → Bool} {global : Option LexicalIndex}
  {pids : List Nat} {ds : DocStats} {terms : List Merged} {globalDf : Option (List Nat)}

/-- The index `open` arrives at. -/
def restored (has : Codec → Bool) (global : Option LexicalIndex) (pids : List Nat) (ds : DocStats)
    (terms : List Merged) (globalDf : Option (List Nat)) : LexicalIndex where
  stats := (indexFiles has global pids ds terms globalDf).metaTxt.stats
  avgdl := P.avgdl (scoreStats global ds.dls).1 (scoreStats global ds.dls).2
  buildK1 := kDefaultK1
  buildB := kDefaultB
  idfN := (scoreStats global ds.dls).1
  idfSumDl := (scoreStats global ds.dls).2
  globalDf := globalDf.getD []
  docids := pids
  doclen := ds.dls
  norms := ds.norms
  termStrings := terms.flatMap Merged.str
  terms := infos has ds .start terms
  blocks := terms.flatMap (Merged.blockInfos has ds)
  postingsOf := fun c => if has c then some (terms.flatMap fun t => t.encoded c) else none

/-- The parts of the directory the two loops do not read fit together. -/
structure Framed (global : Option LexicalIndex) (pids : List Nat) (ds : DocStats)
    (terms : List Merged) (globalDf : Option (List Nat)) : Prop where
  docs : pids.length = ds.dls.length
  norms : ds.norms.length = ds.dls.length
  lengths : ∀ d ∈ ds.dls, d < 2 ^ 32
  fewTerms : terms.length < 2 ^ 32
  globalDf : (globalDf = none ∧ global = none) ∨
    ∃ g df, global = some g ∧ globalDf = some df ∧ df.length = terms.length

theorem has_filter (has : Codec → Bool) : (fun c => decide (c ∈ codecs.filter has)) = has := by
  funext c
  cases c <;> cases v : has .vbyte <;> cases b : has .bp128 <;> simp [codecs, v, b]

variable (storable : ∀ t ∈ terms, t.Storable has) (framed : Framed global pids ds terms globalDf)

include framed

theorem readArrays_ok : readArrays dir (indexFiles has global pids ds terms globalDf) =
    .ok (globalDf.getD []) := by
  have docs := framed.docs
  have norms := framed.norms
  rcases framed.globalDf with ⟨rfl, rfl⟩ | ⟨g, df, rfl, rfl, sizes⟩
  · simp [readArrays, indexFiles, require, docs, norms]
    rfl
  · simp [readArrays, indexFiles, require, docs, norms, sizes]
    rfl

include storable

theorem mapPostings_ok : mapPostings dir (indexFiles has global pids ds terms globalDf) has
      (terms.foldl (fun p t => t.advance has p) LexPos.start).postOff =
    .ok fun c => if has c then some (terms.flatMap fun t => t.encoded c) else none := by
  have sizes : ∀ c, has c → (terms.flatMap fun t => t.encoded c).length =
      (terms.foldl (fun p t => t.advance has p) LexPos.start).postOff c := by
    intro c present
    have small := flatMap_length_lt framed.fewTerms fun t mem => (storable t mem).encoded c present
    rw [postOff_advance _ _ present (by rw [LexPos.start, Nat.zero_add]; exact small), LexPos.start,
      Nat.zero_add]
  generalize (terms.foldl (fun p t => t.advance has p) LexPos.start).postOff = postOff at sizes
  unfold mapPostings indexFiles
  cases v : has .vbyte <;> cases b : has .bp128 <;>
    simp [codecs, v, b, sizes, bind, Except.bind] <;>
    (refine congrArg Except.ok ?_; funext c; cases c <;> simp [v, b])

/-- The lexicon loop reads every term and ends where it should; then the counts decide. -/
theorem readLexicon_eq (few : ∀ t ∈ terms, t.docs.length < 2 ^ 32) :
    readLexicon has (indexFiles has global pids ds terms globalDf) =
      if u32 (terms.map Merged.expectedBlocks).sum = u64 (terms.map Merged.storedBlocks).sum then
        .ok (infos has ds .start terms, terms.foldl (fun p t => t.advance has p) .start)
      else .error (.thrown "lexicon/blocks count mismatch") := by
  have lexicon := (reads_terms framed.lengths storable few .start).run_eq
  have small := flatMap_length_lt framed.fewTerms fun t mem => (storable t mem).str
  have strOff : (terms.foldl (fun p t => t.advance has p) LexPos.start).strOff =
      (terms.flatMap Merged.str).length := by
    rw [strOff_advance _ _ (by rw [LexPos.start, Nat.zero_add]; exact small), LexPos.start,
      Nat.zero_add]
  have nextBlock : (terms.foldl (fun p t => t.advance has p) LexPos.start).nextBlock =
      u32 (terms.map Merged.expectedBlocks).sum := by
    rw [nextBlock_advance _ _ (by decide), LexPos.start, Nat.zero_add]
  unfold readLexicon indexFiles
  simp only [lexicon, bind, Except.bind, strOff, nextBlock, require, and_self, decide_true, if_true,
    decide_eq_true_eq]
  by_cases agree : u32 (terms.map Merged.expectedBlocks).sum =
      u64 (terms.map Merged.storedBlocks).sum
  · simp only [if_pos agree]
    rfl
  · simp only [if_neg agree]

theorem readBlocks_ok (counted : BlocksCounted terms) :
    readBlocks has (indexFiles has global pids ds terms globalDf) (infos has ds .start terms) =
      .ok (terms.flatMap (Merged.blockInfos has ds)) := by
  have few : u64 (terms.map Merged.storedBlocks).sum = (terms.map Merged.storedBlocks).sum := by
    have := counted.total
    exact Nat.mod_eq_of_lt (by omega)
  have blocks := (reads_allBlocks framed.lengths storable counted.term .start [] rfl
    (by simpa using counted.total)).run_eq
  rw [List.nil_append, List.nil_append] at blocks
  unfold readBlocks indexFiles
  simp only [few, blocks, bind, Except.bind, require, decide_true, if_true]
  rfl

/-- **`open` succeeds when the blocks are counted right**, with the index `restored`. -/
theorem openIndex_ok (counted : BlocksCounted terms) :
    openIndex P dir (indexFiles has global pids ds terms globalDf) =
      .ok (restored P has global pids ds terms globalDf) := by
  have few : ∀ t ∈ terms, t.docs.length < 2 ^ 32 := fun t mem => by
    have := counted.term t mem
    omega
  have arrays := @readArrays_ok dir has global pids ds terms globalDf framed
  have lexicon := readLexicon_eq storable framed few
  rw [if_pos ((counts_agree_iff framed.fewTerms few).mpr counted)] at lexicon
  have blocks := readBlocks_ok storable framed counted
  have postings := mapPostings_ok dir storable framed
  have present : (fun c => decide (c ∈ (indexFiles has global pids ds terms globalDf).metaTxt.codecs)) =
      has := has_filter has
  have format : require (decide ((indexFiles has global pids ds terms globalDf).metaTxt.format =
      "hs-lexical-1")) (dir ++ ": unknown index format") = .ok () := rfl
  have size : require (decide ((indexFiles has global pids ds terms globalDf).metaTxt.blockSize =
      kBlockSize)) "index block size mismatch" = .ok () := rfl
  have idf : (indexFiles has global pids ds terms globalDf).metaTxt.globalStats.getD
      ((indexFiles has global pids ds terms globalDf).metaTxt.stats.docsWithTerms,
        (indexFiles has global pids ds terms globalDf).metaTxt.stats.sumDl) =
          scoreStats global ds.dls := by
    cases global <;> rfl
  unfold openIndex
  simp only [present, format, size, idf, arrays, lexicon, blocks, postings, bind, Except.bind]
  rfl

/-- Otherwise `open` throws. -/
theorem openIndex_error (increasing : ∀ t ∈ terms, t.docs.length ≤ 2 ^ 32)
    (miscounted : ¬ BlocksCounted terms) :
    ∃ e, openIndex P dir (indexFiles has global pids ds terms globalDf) = .error e := by
  have lexicon : ∃ e, readLexicon has (indexFiles has global pids ds terms globalDf) = .error e := by
    by_cases few : ∀ t ∈ terms, t.docs.length < 2 ^ 32
    · refine ⟨.thrown "lexicon/blocks count mismatch", ?_⟩
      rw [readLexicon_eq storable framed few,
        if_neg fun agree => miscounted ((counts_agree_iff framed.fewTerms few).mp agree)]
    · push Not at few
      -- the first term of 2^32 postings
      obtain ⟨front, t, back, whole, small, large⟩ : ∃ front t back, terms = front ++ t :: back ∧
          (∀ u ∈ front, u.docs.length < 2 ^ 32) ∧ 2 ^ 32 ≤ t.docs.length := by
        obtain ⟨t, front, back, keep, large, whole, _⟩ := List.exists_of_eraseP
          (p := fun t : Merged => decide (2 ^ 32 ≤ t.docs.length)) few.choose_spec.1
          (decide_eq_true few.choose_spec.2)
        exact ⟨front, t, back, whole, fun u mem => by simpa using keep u mem, by simpa using large⟩
      subst whole
      have tMem : t ∈ front ++ t :: back := by simp
      have fails := @fails_terms has ds framed.lengths front back t
        (fun u mem => storable u (List.mem_append_left _ mem)) small (storable t tMem).str large
        (by have := increasing t tMem; omega) .start
      have run := fails []
      rw [List.append_nil] at run
      refine ⟨.thrown "varint: value exceeds 32 bits", ?_⟩
      unfold readLexicon indexFiles
      simp only [run, bind, Except.bind]
  obtain ⟨e, lexicon⟩ := lexicon
  have arrays := @readArrays_ok dir has global pids ds terms globalDf framed
  have present : (fun c => decide (c ∈ (indexFiles has global pids ds terms globalDf).metaTxt.codecs)) =
      has := has_filter has
  have format : require (decide ((indexFiles has global pids ds terms globalDf).metaTxt.format =
      "hs-lexical-1")) (dir ++ ": unknown index format") = .ok () := rfl
  have size : require (decide ((indexFiles has global pids ds terms globalDf).metaTxt.blockSize =
      kBlockSize)) "index block size mismatch" = .ok () := rfl
  refine ⟨e, ?_⟩
  unfold openIndex
  simp only [present, format, size, arrays, lexicon, bind, Except.bind]

end Open

/-! ## What was recovered -/

/-- `info` is the term `t`, whose postings follow those of the terms `before` it. -/
structure RecoveredTerm (P : Platform) (has : Codec → Bool) (ds : DocStats) (ix : LexicalIndex)
    (before : List Merged) (t : Merged) (info : TermInfo) : Prop where
  str : ix.termString info = t.str
  df : info.df = t.docs.length
  cf : info.cf = t.tfs.sum
  postOff : ∀ c, has c → info.postOff c = (before.flatMap (Merged.encoded · c)).length
  bound : info.bound = (ds.termBound t.postings).bi
  block : 1 < t.blocks → ∀ j < t.blocks, ∃ b, ix.blocks[info.firstBlock + j]? = some b ∧
    b.lastDoc = t.lastDoc j ∧ (∀ c, has c → b.off c = Codec.blockOffset c t.docs t.tfs j) ∧
      b.bound = (ds.boundOf (slice t.postings j)).bi
  decode : ∀ c, has c → ∀ j < t.blocks,
    ix.decodeBlockOf P info c j = .ok (slice t.docs j, slice t.tfs j)

/-- Every term of the sequence, in its place. -/
structure Recovered (P : Platform) (has : Codec → Bool) (ds : DocStats) (terms : List Merged)
    (ix : LexicalIndex) : Prop where
  count : ix.terms.length = terms.length
  term : ∀ i t, terms[i]? = some t → ∃ info, ix.terms[i]? = some info ∧
    RecoveredTerm P has ds ix (terms.take i) t info

section Recovered

variable {P : Platform} {has : Codec → Bool} {ds : DocStats}

theorem flatMap_split {α β : Type} {xs : List α} {i : Nat} {x : α} (found : xs[i]? = some x)
    (f : α → List β) :
    xs.flatMap f = (xs.take i).flatMap f ++ (f x ++ (xs.drop (i + 1)).flatMap f) := by
  obtain ⟨inside, rfl⟩ := List.getElem?_eq_some_iff.mp found
  conv_lhs => rw [← List.take_append_drop i xs, ← List.getElem_cons_drop inside]
  rw [List.flatMap_append, List.flatMap_cons]

theorem length_docs_le {t : Merged} (storable : t.Storable has) : t.docs.length ≤ 2 ^ 32 := by
  have nodup : t.docs.Nodup := storable.increasing.imp fun less => Nat.ne_of_lt less
  have subset : t.docs.toFinset ⊆ Finset.range (2 ^ 32) := fun d mem =>
    Finset.mem_range.mpr (storable.docsFit d (List.mem_toFinset.mp mem))
  have := Finset.card_le_card subset
  rwa [List.toFinset_card_of_nodup nodup, Finset.card_range] at this

theorem cf_eq {t : Merged} (storable : t.Storable has) (few : t.docs.length < 2 ^ 32) :
    t.cf = t.tfs.sum := by
  have bound : t.tfs.sum ≤ t.tfs.length * (2 ^ 32 - 1) :=
    List.sum_le_card_nsmul _ _ fun x mem => Nat.le_sub_one_of_lt (storable.tfsFit x mem)
  have size : t.tfs.length < 2 ^ 32 := storable.lengths ▸ few
  have : t.tfs.length * (2 ^ 32 - 1) ≤ (2 ^ 32 - 1) * (2 ^ 32 - 1) :=
    Nat.mul_le_mul_right _ (by omega)
  exact Nat.mod_eq_of_lt (by omega)

/-- Offsets within a term fit 32 bits when its bytes do. -/
theorem boff_eq {t : Merged} (storable : t.Storable has) {c : Codec} (present : has c) {j : Nat}
    (inside : j ≤ t.blocks) : t.boff c j = Codec.blockOffset c t.docs t.tfs j := by
  have size := storable.encoded c present
  have whole : List.range t.blocks = List.range j ++ List.range' j (t.blocks - j) := by
    have blocks : t.blocks = j + (t.blocks - j) := by omega
    conv_lhs => rw [blocks]
    rw [List.range_eq_range', List.range_eq_range', ← List.range'_append_1, Nat.zero_add]
  rw [Merged.encoded, encodeBlocks, whole, List.flatMap_append, List.length_append] at size
  rw [Merged.boff, Codec.blockOffset, u32]
  exact Nat.mod_eq_of_lt (by rw [encodeBlocks]; omega)

/-- The doc a block continues is the last doc of the block before it. -/
theorem docBefore_eq {t : Merged} {j : Nat} (inside : j < t.blocks) :
    Codec.docBefore uint32Max t.docs j = if j = 0 then uint32Max else t.lastDoc (j - 1) := by
  by_cases first : j = 0
  · subst first
    rw [if_pos rfl, Codec.docBefore_zero]
  · have reach : j * kBlockSize < t.docs.length := by
      simp only [Merged.blocks, blockCount, kBlockSize] at inside
      simp only [kBlockSize]
      omega
    have previous : j - 1 + 1 = j := by omega
    have ends : min t.docs.length (j * kBlockSize) - 1 = j * kBlockSize - 1 := by omega
    rw [if_neg first, Codec.docBefore, Merged.lastDoc, previous, ends, List.getLastD_eq_getLast?,
      List.getLast?_eq_getElem?, List.length_take, List.getD_eq_getElem?_getD]
    have pos : 0 < j * kBlockSize := Nat.mul_pos (by omega) (by decide)
    rw [show min (j * kBlockSize) t.docs.length - 1 = j * kBlockSize - 1 by omega,
      List.getElem?_take_of_lt (by omega), List.getElem?_eq_getElem (by omega)]
    rfl

variable {global : Option LexicalIndex} {pids : List Nat} {terms : List Merged}
  {globalDf : Option (List Nat)}

/-- **The restored index has every term as it was merged.** -/
theorem recovered_restored (framed : Framed global pids ds terms globalDf)
    (storable : ∀ t ∈ terms, t.Storable has) (counted : BlocksCounted terms) :
    Recovered P has ds terms (restored P has global pids ds terms globalDf) := by
  refine ⟨length_infos ds terms .start, fun i t found => ?_⟩
  obtain ⟨inside, rfl⟩ := List.getElem?_eq_some_iff.mp found
  have mem : terms[i] ∈ terms := List.getElem_mem inside
  have storableT := storable _ mem
  have few := counted.term _ mem
  have few' : terms[i].docs.length < 2 ^ 32 := by omega
  let p := (terms.take i).foldl (fun p t => t.advance has p) LexPos.start
  have inFront : ∀ t ∈ terms.take i, t ∈ terms := fun t mem => List.mem_of_mem_take mem
  have frontTerms : (terms.take i).length < 2 ^ 32 := by
    have := framed.fewTerms
    rw [List.length_take]
    omega
  have strOff : p.strOff = ((terms.take i).flatMap Merged.str).length := by
    have small := flatMap_length_lt frontTerms fun t mem => (storable t (inFront t mem)).str
    simp only [p]
    rw [strOff_advance _ _ (by rw [LexPos.start, Nat.zero_add]; exact small), LexPos.start,
      Nat.zero_add]
  have postOff : ∀ c, has c → p.postOff c = ((terms.take i).flatMap (Merged.encoded · c)).length := by
    intro c present
    have small := flatMap_length_lt frontTerms fun t mem =>
      (storable t (inFront t mem)).encoded c present
    simp only [p]
    rw [postOff_advance _ _ present (by rw [LexPos.start, Nat.zero_add]; exact small), LexPos.start,
      Nat.zero_add]
  have blocksBefore : ((terms.take i).flatMap (Merged.blockInfos has ds)).length =
      ((terms.take i).map Merged.storedBlocks).sum := by
    rw [List.length_flatMap]
    congr 1
    refine List.map_congr_left fun t _ => ?_
    rw [Merged.blockInfos, Merged.storedBlocks]
    split
    · rw [List.length_map, List.length_range]
    · rfl
  have firstBlock : p.nextBlock = ((terms.take i).flatMap (Merged.blockInfos has ds)).length := by
    have same : (terms.take i).map Merged.expectedBlocks = (terms.take i).map Merged.storedBlocks :=
      List.map_congr_left fun t mem => expectedBlocks_eq (counted.term t (inFront t mem))
    have total := counted.total
    rw [← List.take_append_drop i terms, List.map_append, List.sum_append] at total
    simp only [p]
    rw [nextBlock_advance _ _ (by decide), LexPos.start, Nat.zero_add, same, blocksBefore, u32]
    exact Nat.mod_eq_of_lt (by omega)
  have block : 1 < terms[i].blocks → ∀ j < terms[i].blocks,
      (restored P has global pids ds terms globalDf).blocks[p.nextBlock + j]? =
        some (terms[i].blockInfo has ds j) := by
    intro many j less
    have whole := flatMap_split found (Merged.blockInfos has ds)
    change (terms.flatMap (Merged.blockInfos has ds))[p.nextBlock + j]? = _
    rw [whole, firstBlock, List.getElem?_append_right (Nat.le_add_right _ _),
      Nat.add_sub_cancel_left, Merged.blockInfos, if_pos many,
      List.getElem?_append_left (by rw [List.length_map, List.length_range]; exact less)]
    simp [less]
  refine ⟨terms[i].info ds p, ?_, ?_⟩
  · change (infos has ds .start terms)[i]? = _
    rw [infos_getElem?, found]
    rfl
  · constructor
    case str =>
        have whole := flatMap_split found Merged.str
        change ((terms.flatMap Merged.str).drop p.strOff).take terms[i].str.length = _
        rw [whole, strOff, List.drop_left' rfl, List.take_left' rfl]
    case df => rfl
    case cf => exact cf_eq storableT few'
    case postOff => exact postOff
    case bound => rfl
    case block =>
        intro many j less
        refine ⟨_, block many j less, rfl, fun c present => ?_, rfl⟩
        rw [Merged.blockInfo]
        simp only [present, if_true]
        exact boff_eq storableT present (Nat.le_of_lt less)
    case decode =>
        intro c present j less
        have data : (restored P has global pids ds terms globalDf).postingsOf c =
            some (terms.flatMap fun t => t.encoded c) := if_pos present
        have df : (terms[i].info ds p).df = terms[i].docs.length := rfl
        have first : (terms[i].info ds p).firstBlock = p.nextBlock := rfl
        have start : (terms[i].info ds p).postOff c = p.postOff c := rfl
        have count : blockCount32 terms[i].docs.length = terms[i].blocks := blockCount32_eq few
        -- the block's offset, stored or 0 for a term of one block
        have off : (restored P has global pids ds terms globalDf).blockOff (terms[i].info ds p) c j =
            .ok (Codec.blockOffset c terms[i].docs terms[i].tfs j) := by
          rw [LexicalIndex.blockOff, df, count, first]
          by_cases many : 1 < terms[i].blocks
          · rw [if_pos many, at?_eq_ok (block many j less)]
            change Except.ok ((terms[i].blockInfo has ds j).off c) = _
            rw [Merged.blockInfo]
            simp only [present, if_true]
            rw [boff_eq storableT present (Nat.le_of_lt less)]
          · obtain rfl : j = 0 := by omega
            rw [if_neg many]
            rfl
        have prev : (restored P has global pids ds terms globalDf).blockPrev (terms[i].info ds p) j =
            .ok (Codec.docBefore uint32Max terms[i].docs j) := by
          rw [LexicalIndex.blockPrev, first, docBefore_eq less]
          by_cases zero : j = 0
          · rw [if_pos zero, if_pos zero]
          · rw [if_neg zero, if_neg zero, at?_eq_ok (block (by omega) (j - 1) (by omega))]
            rfl
        obtain ⟨after, decoded⟩ := Codec.decodeBlock_at_offset P.haveNeon c storableT.lengths
          storableT.docsFit storableT.tfsFit less
            (((terms.drop (i + 1)).flatMap fun t => t.encoded c))
        have whole := flatMap_split found (Merged.encoded · c)
        have place : (terms.flatMap fun t => t.encoded c).drop
            (p.postOff c + Codec.blockOffset c terms[i].docs terms[i].tfs j) =
              (encodeBlocks c (Codec.gapsM1 uint32Max terms[i].docs) (Codec.tfsM1 terms[i].tfs)
                terms[i].blocks ++ (terms.drop (i + 1)).flatMap fun t => t.encoded c).drop
                  (Codec.blockOffset c terms[i].docs terms[i].tfs j) := by
          rw [whole, postOff c present, ← List.drop_drop, List.drop_left' rfl]
          rfl
        unfold LexicalIndex.decodeBlockOf
        simp only [data, off, prev, df, start, place, decoded, bind, Except.bind]
        rfl

end Recovered

/-! ## The round trip, as one statement -/

theorem length_mapM {α β : Type} {f : α → Except Fault β} {xs : List α} {ys : List β}
    (run : xs.mapM f = .ok ys) : ys.length = xs.length := by
  induction xs generalizing ys with
  | nil =>
      cases run
      rfl
  | cons x xs ih =>
      rw [List.mapM_cons] at run
      cases first : f x with
      | error e =>
          rw [first] at run
          cases run
      | ok y =>
          cases rest : xs.mapM f with
          | error e =>
              rw [first, rest] at run
              cases run
          | ok more =>
              rw [first, rest] at run
              cases run
              rw [List.length_cons, List.length_cons, ih rest]

/-- What `writeIndex` writes, and that its arrays fit together. -/
theorem writeIndex_ok {P : Platform} {has : Codec → Bool} {global : Option LexicalIndex}
    {pids dls : List Nat} {terms : List Merged} {files : IndexFiles}
    (docs : pids.length = dls.length) (lengths : ∀ d ∈ dls, d < 2 ^ 32)
    (fewTerms : terms.length < 2 ^ 32)
    (written : writeIndex P has global pids dls terms = .ok files) :
    ∃ globalDf, files = indexFiles has global pids (buildStats P global dls) terms globalDf ∧
      Framed global pids (buildStats P global dls) terms globalDf := by
  have norms : (buildStats P global dls).norms.length = dls.length := List.length_map _
  cases global with
  | none =>
      cases written
      exact ⟨none, rfl, docs, norms, lengths, fewTerms, .inl ⟨rfl, rfl⟩⟩
  | some g =>
      cases dfs : globalDfs g (terms.map Merged.str) with
      | error e =>
          rw [writeIndex, dfs] at written
          cases written
      | ok df =>
          rw [writeIndex, dfs] at written
          cases written
          have size := length_mapM dfs
          rw [List.length_map] at size
          exact ⟨some df, rfl, docs, norms, lengths, fewTerms, .inr ⟨g, df, rfl, rfl, size⟩⟩

/-- **Index metadata round trip.** For every sequence of merged terms, `open`
reads back from what was written every term and every block of it, and each block
decodes on its own, exactly when the reader's 32-bit block counts do not wrap. -/
theorem open_recovers (P : Platform) (dir : String) {has : Codec → Bool}
    {global : Option LexicalIndex} {pids dls : List Nat} {terms : List Merged} {files : IndexFiles}
    (docs : pids.length = dls.length) (lengths : ∀ d ∈ dls, d < 2 ^ 32)
    (fewTerms : terms.length < 2 ^ 32) (storable : ∀ t ∈ terms, t.Storable has)
    (written : writeIndex P has global pids dls terms = .ok files) :
    (∃ ix, openIndex P dir files = .ok ix ∧
      Recovered P has (buildStats P global dls) terms ix) ↔ BlocksCounted terms := by
  obtain ⟨globalDf, rfl, framed⟩ := writeIndex_ok docs lengths fewTerms written
  constructor
  · rintro ⟨ix, opened, _⟩
    by_contra miscounted
    obtain ⟨e, failed⟩ := openIndex_error P dir storable framed
      (fun t mem => length_docs_le (storable t mem)) miscounted
    rw [failed] at opened
    cases opened
  · intro counted
    exact ⟨_, openIndex_ok P dir storable framed counted, recovered_restored framed storable counted⟩

/-- A build without NEON whose statistics do not matter. -/
def Platform.plain : Platform where
  haveNeon := false
  bm25Idf := fun _ _ => 1
  bm25Avgdl := fun sumDl n => sumDl / n

/-- A term of two blocks and a term of one, in both codecs. -/
def twoTerms : List Merged :=
  [⟨[97], List.range 130, List.replicate 130 1⟩, ⟨[98], [1, 4], [3, 1]⟩]

theorem twoTerms_storable : ∀ t ∈ twoTerms, t.Storable fun _ => true := by
  simp only [twoTerms, List.forall_mem_cons, List.not_mem_nil, false_implies, implies_true, and_true]
  refine ⟨⟨by decide, by decide +kernel, by decide +kernel, by decide +kernel, by simp,
    by decide +kernel, fun c _ => ?_⟩, ⟨by decide, by decide, by decide, by decide, by decide, by decide, fun c _ => ?_⟩⟩
  · cases c <;> decide +kernel
  · cases c <;> decide +kernel

theorem open_recovers_two :
    ∃ ix, openIndex .plain "ix" (indexFiles (fun _ => true) none (List.range 130)
        (buildStats .plain none (List.replicate 130 4)) twoTerms none) = .ok ix ∧
      Recovered .plain (fun _ => true) (buildStats .plain none (List.replicate 130 4)) twoTerms ix :=
  (open_recovers .plain "ix" (by simp) (by decide +kernel) (by decide) twoTerms_storable rfl).mpr
    ⟨by decide +kernel, by decide +kernel⟩

/-! ## A term past the wrap-around -/

theorem gapsM1_range' {prev s n : Nat} (next : u32 (prev + 1) = s) (fits : s + n ≤ 2 ^ 32) :
    Codec.gapsM1 prev (List.range' s n) = List.replicate n 0 := by
  induction n generalizing prev s with
  | zero => rfl
  | succ n ih =>
      have gap : Codec.gapM1 prev s = 0 := by
        simp only [Codec.gapM1, sub32, u32] at next ⊢
        omega
      rw [List.range'_succ, Codec.gapsM1, gap, List.replicate_succ]
      cases n with
      | zero => rfl
      | succ n => rw [ih (Nat.mod_eq_of_lt (by omega)) (by omega)]

theorem slice_replicate {α : Type} (x : α) (n j : Nat) :
    slice (List.replicate n x) j = List.replicate (min kBlockSize (n - j * kBlockSize)) x := by
  simp [slice]

/-- Consecutive docs of frequency one: two bytes a packed block, two for a tail of one. -/
theorem length_dense (m : Nat) :
    (encodeBlocks .bp128 (List.replicate (128 * m + 1) 0) (List.replicate (128 * m + 1) 0)
      (m + 1)).length ≤ 2 * (m + 1) := by
  have block : ∀ j ∈ List.range (m + 1), (encodeBlock .bp128 (slice (List.replicate (128 * m + 1) 0) j)
      (slice (List.replicate (128 * m + 1) 0) j)).length ≤ 2 := by
    intro j mem
    have inside := List.mem_range.mp mem
    rw [slice_replicate]
    rcases Nat.lt_or_ge j m with packed | tail
    · have full : min kBlockSize (128 * m + 1 - j * kBlockSize) = 128 := by
        simp only [kBlockSize]
        omega
      rw [full]
      decide +kernel
    · have one : min kBlockSize (128 * m + 1 - j * kBlockSize) = 1 := by
        simp only [kBlockSize]
        omega
      rw [one]
      decide +kernel
  rw [encodeBlocks, List.length_flatMap]
  refine le_trans (List.sum_le_card_nsmul _ 2 fun n mem => ?_) ?_
  · obtain ⟨j, inRange, rfl⟩ := List.mem_map.mp mem
    exact block j inRange
  · rw [List.length_map, List.length_range, Nat.nsmul_eq_mul, Nat.mul_comm]

/-- The term of every document of a collection of `n`. -/
def denseTerm (n : Nat) : Merged := ⟨[97], List.range n, List.replicate n 1⟩

theorem denseTerm_storable {m : Nat} (fits : 128 * m + 1 < 2 ^ 32) :
    (denseTerm (128 * m + 1)).Storable (· = .bp128) where
  str := show 1 < 2 ^ 32 by decide
  nonempty := by
    rw [denseTerm, ne_eq, List.range_eq_nil]
    omega
  increasing := List.pairwise_lt_range
  docsFit := fun d mem => lt_trans (List.mem_range.mp mem) fits
  lengths := by rw [denseTerm, List.length_range, List.length_replicate]
  tfsFit := fun x mem => by
    rw [List.eq_of_mem_replicate mem]
    decide
  encoded := fun c present => by
    obtain rfl : c = .bp128 := of_decide_eq_true present
    have gaps : Codec.gapsM1 uint32Max (List.range (128 * m + 1)) =
        List.replicate (128 * m + 1) 0 := by
      rw [List.range_eq_range']
      exact gapsM1_range' (by decide) (by omega)
    have ones : Codec.tfsM1 (List.replicate (128 * m + 1) 1) = List.replicate (128 * m + 1) 0 := by
      rw [Codec.tfsM1, List.map_replicate]
      rfl
    have blocks : (denseTerm (128 * m + 1)).blocks = m + 1 := by
      rw [Merged.blocks, denseTerm, List.length_range, blockCount, kBlockSize]
      omega
    have small := length_dense m
    rw [Merged.encoded, blocks, denseTerm, gaps, ones]
    omega

/-- **A collection whose every document holds the term, at `2 ^ 32 - 127` documents**: all
the sizes fit, the directory is written, and `open` refuses it. -/
theorem open_miscounts :
    (∀ t ∈ [denseTerm (2 ^ 32 - 127)], t.Storable (· = .bp128)) ∧
      ∃ files, writeIndex .plain (· = .bp128) none (List.range (2 ^ 32 - 127))
          (List.replicate (2 ^ 32 - 127) 1) [denseTerm (2 ^ 32 - 127)] = .ok files ∧
        ¬ ∃ ix, openIndex .plain "ix" files = .ok ix ∧
          Recovered .plain (· = .bp128) (buildStats .plain none (List.replicate (2 ^ 32 - 127) 1))
            [denseTerm (2 ^ 32 - 127)] ix := by
  have shape : 2 ^ 32 - 127 = 128 * (2 ^ 25 - 1) + 1 := by norm_num
  generalize size : 2 ^ 32 - 127 = n at shape ⊢
  have storable : ∀ t ∈ [denseTerm n], t.Storable (· = .bp128) := by
    intro t mem
    rw [List.mem_singleton.mp mem, shape]
    exact denseTerm_storable (by norm_num)
  refine ⟨storable, _, rfl, ?_⟩
  rintro ⟨ix, opened, _⟩
  have docs : (List.range n).length = (List.replicate n 1).length := by
    rw [List.length_range, List.length_replicate]
  obtain ⟨globalDf, same, framed⟩ := @writeIndex_ok .plain (· = .bp128) none _ _ _
    (indexFiles (· = .bp128) none (List.range n)
      (buildStats .plain none (List.replicate n 1)) [denseTerm n] none) docs
    (fun d mem => by
      rw [List.eq_of_mem_replicate mem]
      decide) (by simp) rfl
  have length : (denseTerm n).docs.length = n := List.length_range
  obtain ⟨e, failed⟩ := openIndex_error .plain "ix" storable framed
    (fun t mem => length_docs_le (storable t mem))
    (fun counted => by
      have := counted.term (denseTerm n) List.mem_cons_self
      omega)
  rw [← same, opened] at failed
  cases failed

end HybridSearch.Engine
