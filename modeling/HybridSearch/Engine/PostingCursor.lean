/-
# Engine.PostingCursor -- the cursor over one posting list (search.cc)

`Cursor` holds one decoded block and, apart from it, a block pointer that
`shallow_next` moves over the directory without decoding.  Its constant members are the
parameters here: the index, the term and the codec.

`Naive` is the plain list iterator: a position, and the last target given to
`shallow_next`.  `Holds` relates the two.  One lemma for each call keeps it
(`next_holds`, `nextGeq_holds`, `shallowNext_holds`), and every allowed run refines the
iterator (`run_refines`).
-/
import HybridSearch.Engine.IndexRoundTrip
import HybridSearch.Theory.BinarySearch

namespace HybridSearch.Engine

open HybridSearch.Theory

set_option autoImplicit false

/-- `kEnd`. -/
abbrev kEnd : Nat := uint32Max

/-- `Cursor`: what changes of it.  `docs` and `tfs` are the first `n` entries of the arrays; a
read of what an earlier block left after them counts as undefined. -/
structure Cursor where
  singleLast : Nat
  blk : Nat
  decoded : Nat
  pos : Nat
  n : Nat
  doc : Nat
  docs : List Nat
  tfs : List Nat

namespace Cursor

variable (P : Platform) (ix : LexicalIndex) (t : TermInfo) (codec : Codec)

/-- `nb_`. -/
abbrev nb : Nat := blockCount32 t.df

/-- `blocks_`: only a term of several blocks has a directory. -/
abbrev directory : Bool := decide (1 < nb t)

def lastOf (c : Cursor) (b : Nat) : Except Fault Nat :=
  if directory t then BlockInfo.lastDoc <$> at? ix.blocks (t.firstBlock + b) else .ok c.singleLast

/-- The inner loop of `find_block`, with fuel. -/
def binary (target : Nat) : Nat → Nat → Nat → Except Fault Nat
  | 0, _, _ => .error .diverged
  | fuel + 1, l, h =>
      if l < h then do
        let m := u32 (l + h) / 2
        let block ← at? ix.blocks (t.firstBlock + m)
        if block.lastDoc < target then binary target fuel (m + 1) h else binary target fuel l m
      else .ok l

/-- The outer loop of `find_block`, with fuel. -/
def gallop (target : Nat) : Nat → Nat → Nat → Except Fault Nat
  | 0, _, _ => .error .diverged
  | fuel + 1, step, lo =>
      if lo < nb t then do
        let block ← at? ix.blocks (t.firstBlock + lo)
        if block.lastDoc < target then do
          let hi := min (nb t) (u32 (lo + step))
          let reached ← if hi = nb t then pure true
            else (fun b => decide (target ≤ b.lastDoc)) <$> at? ix.blocks (t.firstBlock + (hi - 1))
          if reached then binary ix t target (nb t + 1) lo hi
          else gallop target fuel (u32 (step * 2)) hi
        else .ok lo
      else .ok lo

def findBlock (c : Cursor) (b target : Nat) : Except Fault Nat :=
  if directory t then gallop ix t target (nb t + 1) 1 b
  else .ok (if b = 0 ∧ target ≤ c.singleLast then 0 else nb t)

/-- `decode`. -/
def decode (c : Cursor) (b : Nat) : Except Fault Cursor := do
  let block ← ix.decodeBlockOf P t codec b
  pure { c with docs := block.1, tfs := block.2, n := min kBlockSize (t.df - b * kBlockSize), decoded := b }

def init : Except Fault Cursor := do
  let c ← decode P ix t codec ⟨0, 0, uint32Max, 0, 0, kEnd, [], []⟩ 0
  let first ← at? c.docs 0
  let last ← if directory t then pure 0 else at? c.docs (c.n - 1)
  pure { c with pos := 0, doc := first, singleLast := last }

/-- `tf()`. -/
def tf (c : Cursor) : Except Fault Nat := at? c.tfs c.pos

def next (c : Cursor) : Except Fault Cursor :=
  let pos := u32 (c.pos + 1)
  if pos < c.n then do
    let doc ← at? c.docs pos
    pure { c with pos, doc }
  else if c.decoded + 1 < nb t then do
    let c ← decode P ix t codec { c with pos, blk := c.decoded + 1 } (c.decoded + 1)
    let doc ← at? c.docs 0
    pure { c with pos := 0, doc }
  else .ok { c with pos, doc := kEnd }

/-- The last loop of `next_geq`, with fuel. -/
def scan (docs : List Nat) (target : Nat) : Nat → Nat → Except Fault Nat
  | 0, _ => .error .diverged
  | fuel + 1, pos => do
      let d ← at? docs pos
      if d < target then scan docs target fuel (pos + 1) else pure pos

def nextGeq (c : Cursor) (target : Nat) : Except Fault Cursor :=
  if target ≤ c.doc then .ok c
  else do
    let b ← findBlock ix t c (max c.blk c.decoded) target
    if nb t ≤ b then pure { c with blk := nb t, doc := kEnd }
    else do
      let c ← if b ≠ c.decoded then
          (fun c : Cursor => { c with pos := 0 }) <$> decode P ix t codec { c with blk := b } b
        else pure { c with blk := b }
      let pos ← scan c.docs target (c.docs.length + 1) c.pos
      let doc ← at? c.docs pos
      pure { c with pos, doc }

def shallowNext (c : Cursor) (target : Nat) : Except Fault Cursor := do
  let blk ← findBlock ix t c c.blk target
  pure { c with blk }

def blockValid (c : Cursor) : Bool := decide (c.blk < nb t)

def blockBound (c : Cursor) : Except Fault BoundInfo :=
  if directory t then BlockInfo.bound <$> at? ix.blocks (t.firstBlock + c.blk) else .ok t.bound

def blockLast (c : Cursor) : Except Fault Nat :=
  if nb t ≤ c.blk then .ok (kEnd - 1) else c.lastOf ix t c.blk

/-! ## Calls -/

inductive Call
  | next
  | nextGeq (target : Nat)
  | shallowNext (target : Nat)
  deriving DecidableEq, Repr

def call (c : Cursor) : Call → Except Fault Cursor
  | .next => c.next P ix t codec
  | .nextGeq target => c.nextGeq P ix t codec target
  | .shallowNext target => c.shallowNext ix t target

def run (calls : List Call) : Except Fault Cursor := do
  let c ← init P ix t codec
  calls.foldlM (call P ix t codec) c

end Cursor

/-! ## The plain iterator -/

/-- The position in the list, and the last target of `shallow_next`. -/
structure Naive where
  index : Nat
  shallow : Nat

namespace Naive

variable (docs : List Nat)

/-- The first position from `i` on that holds `target` or more. -/
def advance (i target : Nat) : Nat := i + ((docs.drop i).takeWhile fun d => decide (d < target)).length

def doc (s : Naive) : Nat := docs.getD s.index kEnd

def call (s : Naive) : Cursor.Call → Naive
  | .next => { s with index := min (s.index + 1) docs.length }
  | .nextGeq target => { s with index := advance docs s.index target }
  | .shallowNext target => { s with shallow := target }

def run (calls : List Cursor.Call) : Naive := calls.foldl (call docs) ⟨0, 0⟩

/-- What the order of calls must keep to. -/
def Ordered (s : Naive) : Cursor.Call → Prop
  | .next => True
  | .nextGeq target => s.shallow ≤ target ∧ target < 2 ^ 32
  | .shallowNext target => s.shallow ≤ target ∧ s.doc docs ≤ target ∧ target < 2 ^ 32

/-- A list that is at its end is not stepped. -/
def Steps (s : Naive) (c : Cursor.Call) : Prop := c = .next → s.index < docs.length

/-- Every call of a run from `s`, where it is made. -/
def Allowed (may : Naive → Cursor.Call → Prop) : Naive → List Cursor.Call → Prop
  | _, [] => True
  | s, c :: rest => may s c ∧ Allowed may (s.call docs c) rest

end Naive

namespace Naive

theorem allowed_append {docs : List Nat} {may : Naive → Cursor.Call → Prop} {s : Naive}
    {front back : List Cursor.Call} : Allowed docs may s (front ++ back) ↔
      Allowed docs may s front ∧ Allowed docs may (front.foldl (call docs) s) back := by
  induction front generalizing s with
  | nil => exact (and_iff_right trivial).symm
  | cons c front ih => rw [List.cons_append, Allowed, Allowed, ih, and_assoc]; rfl

end Naive

/-! ## The posting list -/

/-- The last doc of block `j`. -/
def blockLastDoc (docs : List Nat) (j : Nat) : Nat :=
  docs.getD (min docs.length ((j + 1) * kBlockSize) - 1) 0

/-- The score bound of block `j`: a term of one block has only its own. -/
def BoundOf (ix : LexicalIndex) (t : TermInfo) (docs : List Nat) (j : Nat) (bound : BoundInfo) : Prop :=
  if 1 < blockCount docs.length then ∃ b, ix.blocks[t.firstBlock + j]? = some b ∧ b.bound = bound
  else t.bound = bound

/-- The term is the posting list `docs` and `tfs`, with a directory of its blocks. -/
structure PostingList (P : Platform) (ix : LexicalIndex) (t : TermInfo) (codec : Codec)
    (docs tfs : List Nat) : Prop where
  df : t.df = docs.length
  lengths : docs.length = tfs.length
  nonempty : docs ≠ []
  ascending : docs.Pairwise (· < ·)
  below_end : ∀ d ∈ docs, d < kEnd
  last : 1 < blockCount docs.length → ∀ j < blockCount docs.length,
    ∃ b, ix.blocks[t.firstBlock + j]? = some b ∧ b.lastDoc = blockLastDoc docs j
  decode : ∀ j < blockCount docs.length, ix.decodeBlockOf P t codec j = .ok (slice docs j, slice tfs j)

/-! ## Positions and blocks -/

section Blocks

open BinarySearch

variable {docs : List Nat} (ascending : docs.Pairwise (· < ·))
include ascending

theorem getD_lt_getD {i j d : Nat} (less : i < j) (inside : j < docs.length) :
    docs.getD i d < docs.getD j d := by
  rw [List.getD_eq_getElem _ _ (less.trans inside), List.getD_eq_getElem _ _ inside]
  exact List.pairwise_iff_getElem.mp ascending i j _ inside less

theorem getD_le_getD {i j d : Nat} (le : i ≤ j) (inside : j < docs.length) :
    docs.getD i d ≤ docs.getD j d := by
  rcases le.eq_or_lt with rfl | less
  · exact le_rfl
  · exact (getD_lt_getD ascending less inside).le

theorem le_blockLastDoc {i : Nat} (inside : i < docs.length) :
    docs.getD i 0 ≤ blockLastDoc docs (i / kBlockSize) :=
  getD_le_getD ascending (by simp only [kBlockSize]; omega) (by omega)

theorem blockLastDoc_lt {i j : Nat} (before : j < i / kBlockSize) (inside : i < docs.length) :
    blockLastDoc docs j < docs.getD i 0 := by
  simp only [kBlockSize] at before
  exact getD_lt_getD ascending (by simp only [kBlockSize]; omega) inside

theorem blockLastDoc_mono {i j : Nat} (less : i < j) (inside : j < blockCount docs.length) :
    blockLastDoc docs i < blockLastDoc docs j := by
  simp only [blockCount, kBlockSize] at inside
  exact getD_lt_getD ascending (by simp only [kBlockSize]; omega) (by omega)

/-- **The first posting that is not below lies in the first block whose last one is not.** -/
theorem turn_block {target p m : Nat}
    (posting : Turn (fun i => docs.getD i 0 < target) 0 docs.length p)
    (block : Turn (fun j => blockLastDoc docs j < target) 0 (blockCount docs.length) m) :
    (m < blockCount docs.length → p < docs.length ∧ p / kBlockSize = m) ∧
      (m = blockCount docs.length → p = docs.length) := by
  have later (further : p < docs.length) : m ≤ p / kBlockSize := by
    by_contra less
    have own := block.before _ (Nat.zero_le _) (Nat.not_le.mp less)
    exact posting.stop further ((le_blockLastDoc ascending further).trans_lt own)
  constructor
  · intro inside
    have reached := block.stop inside
    have place : min docs.length ((m + 1) * kBlockSize) - 1 < docs.length := by
      simp only [blockCount, kBlockSize] at inside ⊢
      omega
    have p_le : p ≤ min docs.length ((m + 1) * kBlockSize) - 1 := by
      by_contra less
      exact reached (posting.before _ (Nat.zero_le _) (Nat.not_le.mp less))
    have further : p < docs.length := p_le.trans_lt place
    refine ⟨further, le_antisymm ?_ (later further)⟩
    simp only [kBlockSize] at p_le ⊢
    omega
  · intro atLast
    by_contra short
    have further : p < docs.length := lt_of_le_of_ne posting.high short
    have inside := later further
    rw [atLast] at inside
    simp only [blockCount, kBlockSize] at inside
    omega

end Blocks

theorem blockLastDoc_mem {docs : List Nat} (nonempty : docs ≠ []) (j : Nat) :
    blockLastDoc docs j ∈ docs := by
  have positive := List.length_pos_iff.mpr nonempty
  have inside : min docs.length ((j + 1) * kBlockSize) - 1 < docs.length := by omega
  rw [blockLastDoc, List.getD_eq_getElem _ _ inside]
  exact List.getElem_mem _

theorem getD_slice {docs : List Nat} {j i d : Nat} (inside : i < kBlockSize) :
    (slice docs j).getD i d = docs.getD (j * kBlockSize + i) d := by
  rw [slice, List.getD_eq_getElem?_getD, List.getElem?_take, if_pos inside, List.getElem?_drop,
    List.getD_eq_getElem?_getD]

/-- Where the iterator stops. -/
theorem advance_turn {docs : List Nat} {i target : Nat} (inside : i ≤ docs.length) :
    BinarySearch.Turn (fun j => docs.getD j 0 < target) i docs.length (Naive.advance docs i target) := by
  have split : docs.length = (docs.take i).length + (docs.drop i).length := by
    rw [List.length_take, List.length_drop]
    omega
  have shift (j : Nat) : docs.getD (i + j) 0 = (docs.drop i).getD j 0 := by
    rw [List.getD_eq_getElem?_getD, List.getD_eq_getElem?_getD, List.getElem?_drop]
  have front (l : List Nat) : BinarySearch.Turn (fun j => l.getD j 0 < target) 0 l.length
      (l.takeWhile fun d => decide (d < target)).length := by
    induction l with
    | nil => exact ⟨le_rfl, le_rfl, fun j low high => absurd high (Nat.not_lt_zero _), fun high =>
        absurd high (Nat.not_lt_zero _)⟩
    | cons d l ih =>
        by_cases below : d < target
        · rw [List.takeWhile_cons_of_pos (p := fun d => decide (d < target)) (decide_eq_true below),
            List.length_cons, List.length_cons]
          refine ⟨Nat.zero_le _, Nat.succ_le_succ ih.high, ?_, fun high => ih.stop (Nat.lt_of_succ_lt_succ high)⟩
          rintro (_ | j) - high
          · exact below
          · exact ih.before j (Nat.zero_le _) (Nat.lt_of_succ_lt_succ high)
        · rw [List.takeWhile_cons_of_neg (p := fun d => decide (d < target)) (by rwa [decide_eq_true_eq])]
          exact ⟨le_rfl, Nat.zero_le _, fun j low high => absurd high (Nat.not_lt_zero _), fun _ => below⟩
  have turn := front (docs.drop i)
  have length := turn.high
  rw [List.length_drop] at length
  refine ⟨Nat.le_add_right _ _, by rw [Naive.advance]; omega, ?_, ?_⟩
  · intro j low high
    rw [Naive.advance] at high
    have own := turn.before (j - i) (Nat.zero_le _) (by omega)
    rwa [← shift, Nat.add_sub_cancel' low] at own
  · intro high
    rw [Naive.advance] at high ⊢
    have own := turn.stop (by rw [List.length_drop]; omega)
    rwa [← shift] at own

/-! ## find_block -/

namespace Cursor

section FindBlock

open BinarySearch

variable {ix : LexicalIndex} {t : TermInfo} {lasts : Nat → Nat}
  (read : ∀ j < nb t, ∃ b, ix.blocks[t.firstBlock + j]? = some b ∧ b.lastDoc = lasts j)
  (mono : ∀ i j, i < j → j < nb t → lasts i < lasts j)

include read in
theorem read_block {j : Nat} (inside : j < nb t) :
    ∃ b, at? ix.blocks (t.firstBlock + j) = .ok b ∧ b.lastDoc = lasts j := by
  obtain ⟨b, found, same⟩ := read j inside
  exact ⟨b, at?_eq_ok found, same⟩

theorem nb_small : nb t < 2 ^ 26 := by
  have small : u32 (t.df + kBlockSize - 1) < 2 ^ 32 := Nat.mod_lt _ (by decide)
  rw [nb, blockCount32, Nat.div_lt_iff_lt_mul (by decide)]
  exact small.trans (by decide)

include read in
theorem binary_eq {target fuel l h : Nat} (enough : h - l ≤ fuel) (inside : h ≤ nb t) :
    binary ix t target (fuel + 1) l h =
      .ok (lowerBound (fun j => decide (lasts j < target)) fuel l h) := by
  have small := nb_small (t := t)
  induction fuel generalizing l h with
  | zero => rw [binary, if_neg (by omega), lowerBound]
  | succ fuel ih =>
      rw [binary, lowerBound]
      by_cases further : l < h
      · have middle : u32 (l + h) / 2 = (l + h) / 2 := by rw [u32, Nat.mod_eq_of_lt (by omega)]
        obtain ⟨b, found, same⟩ := read_block read (j := (l + h) / 2) (by omega)
        rw [if_pos further, if_pos further, middle]
        dsimp only
        rw [found, ok_bind, same]
        by_cases less : lasts ((l + h) / 2) < target
        · rw [if_pos less, if_pos (decide_eq_true less)]
          exact ih (by omega) inside
        · rw [if_neg less, if_neg (by rwa [decide_eq_true_eq])]
          exact ih (by omega) (by omega)
      · rw [if_neg further, if_neg further]

include read mono in
theorem binary_turn {target l h : Nat} (le : l ≤ h) (inside : h ≤ nb t) :
    ∃ m, binary ix t target (nb t + 1) l h = .ok m ∧ Turn (fun j => lasts j < target) l h m := by
  refine ⟨_, binary_eq read (by omega) inside, ?_⟩
  have turn := @lowerBound_turn (fun j => decide (lasts j < target)) (nb t) l h le (by omega)
    fun i j _ less j_high below =>
      decide_eq_true ((mono i j less (by omega)).trans (of_decide_eq_true below))
  simpa only [decide_eq_true_eq] using turn

include read mono in
/-- **Galloping finds the first block from `lo` on whose last doc reaches the target.** -/
theorem gallop_turn {target fuel step lo : Nat} (positive : 1 ≤ step) (small : step ≤ lo + 1)
    (inside : lo ≤ nb t) (enough : nb t - lo < fuel) :
    ∃ m, gallop ix t target fuel step lo = .ok m ∧ Turn (fun j => lasts j < target) lo (nb t) m := by
  have few := nb_small (t := t)
  induction fuel generalizing step lo with
  | zero => omega
  | succ fuel ih =>
      rw [gallop]
      by_cases further : lo < nb t
      · obtain ⟨b, found, same⟩ := read_block read further
        rw [if_pos further, found, ok_bind, same]
        by_cases less : lasts lo < target
        · have next : u32 (lo + step) = lo + step := by rw [u32, Nat.mod_eq_of_lt (by omega)]
          have double : u32 (step * 2) = step * 2 := by rw [u32, Nat.mod_eq_of_lt (by omega)]
          rw [if_pos less, next, double]
          by_cases all : min (nb t) (lo + step) = nb t
          · rw [if_pos all, all]
            exact binary_turn read mono inside le_rfl
          · have hi : min (nb t) (lo + step) = lo + step := by omega
            obtain ⟨last, found', same'⟩ := read_block read (j := lo + step - 1) (by omega)
            rw [if_neg all, hi, found']
            change ∃ m, (if decide (target ≤ last.lastDoc) = true then _ else _) = _ ∧ _
            rw [same']
            by_cases reached : target ≤ lasts (lo + step - 1)
            · rw [if_pos (decide_eq_true reached)]
              obtain ⟨m, run, turn⟩ : ∃ m, binary ix t target (nb t + 1) lo (lo + step) = .ok m ∧
                  Turn (fun j => lasts j < target) lo (lo + step) m :=
                binary_turn read mono (by omega) (by omega)
              have before : m < lo + step := by
                by_contra past
                have own := turn.before (lo + step - 1) (by omega) (by omega)
                exact absurd reached (by omega)
              exact ⟨m, run, turn.widen before (by omega)⟩
            · rw [if_neg (by rwa [decide_eq_true_eq])]
              obtain ⟨m, run, turn⟩ : ∃ m, gallop ix t target fuel (step * 2) (lo + step) = .ok m ∧
                  Turn (fun j => lasts j < target) (lo + step) (nb t) m :=
                ih (by omega) (by omega) (by omega) (by omega)
              refine ⟨m, run, turn.prepend (by omega) fun i _ i_high => ?_⟩
              rcases Nat.lt_or_ge i (lo + step - 1) with front | final
              · exact (mono i _ front (by omega)).trans (Nat.not_le.mp reached)
              · obtain rfl : i = lo + step - 1 := by omega
                exact Nat.not_le.mp reached
        · rw [if_neg less]
          exact ⟨lo, rfl, le_rfl, inside, fun i low high => absurd high (by omega), fun _ => less⟩
      · rw [if_neg further]
        exact ⟨lo, rfl, le_rfl, inside, fun i low high => absurd high (by omega), fun high => absurd high further⟩

end FindBlock

end Cursor

/-! ## The cursor follows the iterator -/

/-- The cursor `c` stands where the iterator `s` stands. -/
structure Cursor.Holds (t : TermInfo) (docs tfs : List Nat) (c : Cursor) (s : Naive) : Prop where
  decoded_lt : c.decoded < Cursor.nb t
  docs_eq : c.docs = slice docs c.decoded
  tfs_eq : c.tfs = slice tfs c.decoded
  n_eq : c.n = min kBlockSize (docs.length - c.decoded * kBlockSize)
  single : ¬1 < Cursor.nb t → c.singleLast = blockLastDoc docs 0
  ahead : c.decoded ≤ c.blk
  blk_le : c.blk ≤ Cursor.nb t
  inside : s.index ≤ docs.length
  doc_eq : c.doc = s.doc docs
  place : s.index < docs.length → c.pos < c.n ∧ s.index = c.decoded * kBlockSize + c.pos
  behind : ∀ j < c.blk, blockLastDoc docs j < s.shallow ∨ blockLastDoc docs j < c.doc

namespace PostingList

open BinarySearch

variable {P : Platform} {ix : LexicalIndex} {t : TermInfo} {codec : Codec} {docs tfs : List Nat}
  (list : PostingList P ix t codec docs tfs) (few : docs.length + 127 < 2 ^ 32)
include list few

theorem nb_eq : Cursor.nb t = blockCount docs.length := by
  rw [Cursor.nb, list.df]
  exact blockCount32_eq few

theorem nb_pos : 0 < Cursor.nb t := by
  have positive := List.length_pos_iff.mpr list.nonempty
  rw [list.nb_eq few]
  simp only [blockCount, kBlockSize]
  omega

/-- **`find_block`** from a block pointer that no earlier block can be the answer for. -/
theorem findBlock_turn {c : Cursor} {b target : Nat}
    (single : ¬1 < Cursor.nb t → c.singleLast = blockLastDoc docs 0) (inside : b ≤ Cursor.nb t) :
    ∃ m, c.findBlock ix t b target = .ok m ∧
      Turn (fun j => blockLastDoc docs j < target) b (Cursor.nb t) m := by
  have count := list.nb_eq few
  have positive := list.nb_pos few
  rw [Cursor.findBlock]
  by_cases several : 1 < Cursor.nb t
  · rw [if_pos (decide_eq_true several)]
    refine Cursor.gallop_turn ?_ ?_ le_rfl (Nat.le_add_left _ _) inside (by omega)
    · rw [count] at several ⊢
      exact list.last several
    · intro i j less j_lt
      exact blockLastDoc_mono list.ascending less (count ▸ j_lt)
  · have one : Cursor.nb t = 1 := by omega
    rw [if_neg (by rwa [decide_eq_true_eq]), single several, one]
    refine ⟨_, rfl, ?_⟩
    by_cases found : b = 0 ∧ target ≤ blockLastDoc docs 0
    · rw [if_pos found, found.1]
      exact ⟨le_rfl, Nat.zero_le _, fun i _ high => absurd high (Nat.not_lt_zero _), fun _ =>
        Nat.not_lt.mpr found.2⟩
    · rw [if_neg found]
      refine ⟨one ▸ inside, le_rfl, fun i low high => ?_, fun high => absurd high (lt_irrefl _)⟩
      obtain rfl : i = 0 := by omega
      exact Nat.not_le.mp fun reached => found ⟨by omega, reached⟩

/-- Decoding a block. -/
theorem decode_ok {c : Cursor} {b : Nat} (inside : b < Cursor.nb t) :
    c.decode P ix t codec b = .ok { c with docs := slice docs b, tfs := slice tfs b, n := min kBlockSize (docs.length - b * kBlockSize), decoded := b } := by
  rw [Cursor.decode, list.decode b (list.nb_eq few ▸ inside), ok_bind, list.df]
  rfl

theorem size_pos {b : Nat} (inside : b < Cursor.nb t) :
    0 < min kBlockSize (docs.length - b * kBlockSize) := by
  rw [list.nb_eq few] at inside
  simp only [blockCount, kBlockSize] at inside ⊢
  omega

omit list few in
theorem at_slice {b i : Nat} (inside : i < min kBlockSize (docs.length - b * kBlockSize)) :
    at? (slice docs b) i = .ok (docs.getD (b * kBlockSize + i) 0) := by
  have length := Codec.length_slice docs b
  rw [← getD_slice (inside.trans_le (Nat.min_le_left _ _)), List.getD_eq_getElem _ _ (length ▸ inside)]
  exact at?_eq_ok (List.getElem?_eq_getElem _)

omit list few in
theorem doc_inside {s : Naive} (inside : s.index < docs.length) : s.doc docs = docs.getD s.index 0 := by
  rw [Naive.doc, List.getD_eq_getElem _ _ inside, List.getD_eq_getElem _ _ inside]

omit list few in
theorem doc_end {s : Naive} (past : docs.length ≤ s.index) : s.doc docs = kEnd :=
  List.getD_eq_default _ _ past

omit few in
theorem last_lt_end (j : Nat) : blockLastDoc docs j < kEnd :=
  list.below_end _ (blockLastDoc_mem list.nonempty j)

omit few in
theorem doc_lt_end {i : Nat} (inside : i < docs.length) : docs.getD i 0 < kEnd := by
  rw [List.getD_eq_getElem _ _ inside]
  exact list.below_end _ (List.getElem_mem _)

theorem init_holds : ∃ c, Cursor.init P ix t codec = .ok c ∧ Cursor.Holds t docs tfs c ⟨0, 0⟩ := by
  have positive := list.nb_pos few
  have inside := List.length_pos_iff.mpr list.nonempty
  have size := list.size_pos few positive
  have first := at_slice size
  have holds {v : Nat} (single : ¬1 < Cursor.nb t → v = blockLastDoc docs 0) :
      Cursor.Holds t docs tfs
        ⟨v, 0, 0, 0, min kBlockSize (docs.length - 0 * kBlockSize), docs.getD (0 * kBlockSize + 0) 0,
          slice docs 0, slice tfs 0⟩ ⟨0, 0⟩ :=
    ⟨positive, rfl, rfl, rfl, single, le_rfl, Nat.zero_le _, Nat.zero_le _,
      (doc_inside (s := ⟨0, 0⟩) inside).symm, fun _ => ⟨size, rfl⟩, fun j high => absurd high (Nat.not_lt_zero _)⟩
  rw [Cursor.init, list.decode_ok few positive, ok_bind]
  dsimp only
  rw [first, ok_bind]
  by_cases several : 1 < Cursor.nb t
  · rw [if_pos (decide_eq_true several)]
    exact ⟨_, rfl, holds fun one => absurd several one⟩
  · rw [if_neg (by rwa [decide_eq_true_eq]), at_slice (by omega), ok_bind]
    refine ⟨_, rfl, holds fun _ => ?_⟩
    rw [blockLastDoc]
    congr 1
    have one : blockCount docs.length ≤ 1 := list.nb_eq few ▸ Nat.not_lt.mp several
    simp only [blockCount, kBlockSize] at one ⊢
    omega

/-- **`next()`** steps one posting. -/
theorem next_holds {c : Cursor} {s : Naive} (holds : c.Holds t docs tfs s) (steps : s.index < docs.length) :
    ∃ c', c.next P ix t codec = .ok c' ∧ c'.Holds t docs tfs (s.call docs .next) := by
  obtain ⟨pos_lt, place⟩ := holds.place steps
  have count := list.nb_eq few
  have size := holds.n_eq
  have decoded_lt := holds.decoded_lt
  have step : (s.call docs .next).index = s.index + 1 := Nat.min_eq_left steps
  have no_wrap : u32 (c.pos + 1) = c.pos + 1 := by
    rw [u32, Nat.mod_eq_of_lt]
    omega
  have grows {d : Nat} (le : c.doc ≤ d) {j : Nat} (old : blockLastDoc docs j < s.shallow ∨
      blockLastDoc docs j < c.doc) : blockLastDoc docs j < s.shallow ∨ blockLastDoc docs j < d :=
    old.imp_right fun less => less.trans_le le
  rw [Cursor.next, no_wrap]
  by_cases same_block : c.pos + 1 < c.n
  · have inside : s.index + 1 < docs.length := by omega
    have doc := doc_inside (s := s.call docs .next) (step ▸ inside)
    rw [if_pos same_block, holds.docs_eq, at_slice (size ▸ same_block), ok_bind]
    refine ⟨_, rfl, decoded_lt, rfl, holds.tfs_eq, size, holds.single, holds.ahead, holds.blk_le,
      step ▸ inside.le, ?_, fun _ => ⟨same_block, by rw [step, place]; rfl⟩, ?_⟩
    · rw [doc, step, place]
      rfl
    · refine fun j high => grows ?_ (holds.behind j high)
      rw [holds.doc_eq, doc_inside steps, place]
      exact getD_le_getD list.ascending (by omega) (by omega)
  · rw [if_neg same_block]
    by_cases more : c.decoded + 1 < Cursor.nb t
    · have full : s.index + 1 = (c.decoded + 1) * kBlockSize := by
        rw [count] at more
        simp only [blockCount, kBlockSize] at *
        omega
      have next_size := list.size_pos few more
      have inside : s.index + 1 < docs.length := by omega
      have doc := doc_inside (s := s.call docs .next) (step ▸ inside)
      rw [if_pos more, list.decode_ok few more, ok_bind]
      dsimp only
      rw [at_slice next_size, ok_bind]
      refine ⟨_, rfl, more, rfl, rfl, rfl, holds.single, le_rfl, more.le, step ▸ inside.le, ?_,
        fun _ => ⟨next_size, by rw [step, full]; rfl⟩, ?_⟩
      · rw [doc, step, full]
        rfl
      · intro j high
        right
        refine blockLastDoc_lt list.ascending ?_ (by omega)
        simp only [kBlockSize] at *
        omega
    · have all : s.index + 1 = docs.length := by
        rw [count] at more decoded_lt
        simp only [blockCount, kBlockSize] at *
        omega
      rw [if_neg more]
      refine ⟨_, rfl, decoded_lt, holds.docs_eq, holds.tfs_eq, size, holds.single, holds.ahead,
        holds.blk_le, step ▸ all.le, ?_, fun short => absurd short (by omega), ?_⟩
      · rw [doc_end (by omega)]
      · exact fun j _ => .inr (list.last_lt_end j)

omit list few in
theorem scan_ok {l : List Nat} {target fuel pos q : Nat} (le : pos ≤ q) (inside : q < l.length)
    (enough : q - pos < fuel) (before : ∀ r, pos ≤ r → r < q → l.getD r 0 < target)
    (stop : ¬l.getD q 0 < target) : Cursor.scan l target fuel pos = .ok q := by
  induction fuel generalizing pos with
  | zero => omega
  | succ fuel ih =>
      have read : at? l pos = .ok (l.getD pos 0) := by
        rw [List.getD_eq_getElem _ _ (le.trans_lt inside)]
        exact at?_eq_ok (List.getElem?_eq_getElem _)
      rw [Cursor.scan, read, ok_bind]
      rcases le.eq_or_lt with rfl | less
      · rw [if_neg stop]
        rfl
      · rw [if_pos (before pos le_rfl less)]
        exact ih less (by omega) fun r low => before r (by omega)

/-- The block pointer never passes the answer. -/
theorem findBlock_first {c : Cursor} {s : Naive} (holds : c.Holds t docs tfs s) {target : Nat}
    (past_shallow : s.shallow ≤ target) (past_doc : s.doc docs ≤ target) :
    ∃ m, c.findBlock ix t c.blk target = .ok m ∧ c.blk ≤ m ∧
      Turn (fun j => blockLastDoc docs j < target) 0 (blockCount docs.length) m := by
  obtain ⟨m, found, turn⟩ : ∃ m, c.findBlock ix t c.blk target = .ok m ∧
      Turn (fun j => blockLastDoc docs j < target) c.blk (Cursor.nb t) m :=
    list.findBlock_turn few holds.single holds.blk_le
  rw [list.nb_eq few] at turn
  refine ⟨m, found, turn.low, turn.prepend (Nat.zero_le _) fun j _ high => ?_⟩
  rcases holds.behind j high with less | less
  · exact less.trans_le past_shallow
  · exact less.trans_le (holds.doc_eq ▸ past_doc)

/-- **`next_geq()`** stops at the first posting that reaches the target. -/
theorem nextGeq_holds {c : Cursor} {s : Naive} (holds : c.Holds t docs tfs s) {target : Nat}
    (past_shallow : s.shallow ≤ target) (word : target < 2 ^ 32) :
    ∃ c', c.nextGeq P ix t codec target = .ok c' ∧
      c'.Holds t docs tfs (s.call docs (.nextGeq target)) := by
  have turn := @advance_turn docs s.index target holds.inside
  rw [Cursor.nextGeq]
  by_cases reached : target ≤ c.doc
  · have stays : Naive.advance docs s.index target = s.index := by
      refine turn.unique ⟨le_rfl, holds.inside, fun i low high => absurd high (by omega), fun further => ?_⟩
      rw [← doc_inside further, ← holds.doc_eq]
      exact Nat.not_lt.mpr reached
    rw [if_pos reached]
    refine ⟨c, rfl, ?_⟩
    rw [Naive.call, stays]
    exact holds
  · rw [if_neg reached]
    have less : s.doc docs < target := holds.doc_eq ▸ Nat.not_le.mp reached
    have further : s.index < docs.length := by
      by_contra past
      rw [doc_end (Nat.not_lt.mp past)] at less
      exact absurd less (Nat.le_sub_one_of_lt word).not_gt
    obtain ⟨m, found, blk_le, first⟩ := list.findBlock_first few holds past_shallow less.le
    have whole := turn.prepend (Nat.zero_le _) fun i _ high =>
      (getD_le_getD list.ascending high.le further).trans_lt (doc_inside further ▸ less)
    obtain ⟨in_block, past_end⟩ := turn_block list.ascending whole first
    have count := list.nb_eq few
    rw [max_eq_left holds.ahead, found, ok_bind]
    by_cases exhausted : Cursor.nb t ≤ m
    · have all := past_end (le_antisymm first.high (count ▸ exhausted))
      rw [if_pos exhausted]
      refine ⟨_, rfl, holds.decoded_lt, holds.docs_eq, holds.tfs_eq, holds.n_eq, holds.single,
        holds.decoded_lt.le, le_rfl, all.le, ?_, fun short => absurd short all.ge.not_gt, ?_⟩
      · exact (doc_end all.ge).symm
      · exact fun j _ => .inr (list.last_lt_end j)
    · have m_lt := Nat.not_le.mp exhausted
      obtain ⟨inside, home⟩ := in_block (count ▸ m_lt)
      have split := Nat.mod_add_div' (Naive.advance docs s.index target) kBlockSize
      rw [home] at split
      have low : Naive.advance docs s.index target % kBlockSize < kBlockSize := Nat.mod_lt _ (by decide)
      have small : Naive.advance docs s.index target % kBlockSize <
          min kBlockSize (docs.length - m * kBlockSize) := lt_min low (by omega)
      have length := Codec.length_slice docs m
      have scanned {pos : Nat} (le : pos ≤ Naive.advance docs s.index target % kBlockSize) :
          Cursor.scan (slice docs m) target ((slice docs m).length + 1) pos =
            .ok (Naive.advance docs s.index target % kBlockSize) := by
        refine scan_ok le (length ▸ small) (by omega) (fun r _ high => ?_) ?_
        · rw [getD_slice (high.trans low)]
          exact whole.before _ (Nat.zero_le _) (by omega)
        · rw [getD_slice low, Nat.add_comm, split]
          exact whole.stop inside
      have result : Cursor.Holds t docs tfs
          ⟨c.singleLast, m, m, Naive.advance docs s.index target % kBlockSize,
            min kBlockSize (docs.length - m * kBlockSize),
            docs.getD (m * kBlockSize + Naive.advance docs s.index target % kBlockSize) 0,
            slice docs m, slice tfs m⟩ (s.call docs (.nextGeq target)) := by
        refine ⟨m_lt, rfl, rfl, rfl, holds.single, le_rfl, m_lt.le, inside.le, ?_,
          fun _ => ⟨small, by rw [Nat.add_comm]; exact split.symm⟩, fun j high => .inr ?_⟩
        · rw [Nat.add_comm, split]
          exact (doc_inside (s := s.call docs (.nextGeq target)) inside).symm
        · rw [Nat.add_comm, split]
          exact blockLastDoc_lt list.ascending (home ▸ high) inside
      rw [if_neg exhausted]
      by_cases other : m ≠ c.decoded
      · rw [if_pos other, list.decode_ok few m_lt]
        refine ⟨_, ?_, result⟩
        change (Cursor.scan (slice docs m) target ((slice docs m).length + 1) 0 >>= _) = _
        rw [scanned (Nat.zero_le _), ok_bind, at_slice small]
        rfl
      · obtain rfl : m = c.decoded := not_not.mp other
        obtain ⟨pos_lt, place⟩ := holds.place further
        rw [if_neg other]
        refine ⟨_, ?_, result⟩
        change (Cursor.scan c.docs target (c.docs.length + 1) c.pos >>= _) = _
        rw [holds.docs_eq, scanned (by have := turn.low; omega), ok_bind, at_slice small, ok_bind,
          ← holds.n_eq, ← holds.tfs_eq]
        rfl

/-- **`shallow_next()`** leaves the postings, and puts the block pointer on the block of the first
posting that reaches the target. -/
theorem shallowNext_holds {c : Cursor} {s : Naive} (holds : c.Holds t docs tfs s) {target : Nat}
    (past_shallow : s.shallow ≤ target) (past_doc : s.doc docs ≤ target) :
    ∃ c', c.shallowNext ix t target = .ok c' ∧
      c'.Holds t docs tfs (s.call docs (.shallowNext target)) ∧
      Turn (fun j => blockLastDoc docs j < target) 0 (blockCount docs.length) c'.blk := by
  obtain ⟨m, found, blk_le, first⟩ := list.findBlock_first few holds past_shallow past_doc
  rw [Cursor.shallowNext, found, ok_bind]
  exact ⟨_, rfl, ⟨holds.decoded_lt, holds.docs_eq, holds.tfs_eq, holds.n_eq, holds.single,
    holds.ahead.trans blk_le, list.nb_eq few ▸ first.high, holds.inside, holds.doc_eq, holds.place,
    fun j high => .inl (first.before j (Nat.zero_le _) high)⟩, first⟩

theorem call_holds {c : Cursor} {s : Naive} (holds : c.Holds t docs tfs s) {step : Cursor.Call}
    (ordered : s.Ordered docs step) (steps : s.Steps docs step) :
    ∃ c', c.call P ix t codec step = .ok c' ∧ c'.Holds t docs tfs (s.call docs step) := by
  cases step with
  | next => exact list.next_holds few holds (steps rfl)
  | nextGeq target => exact list.nextGeq_holds few holds ordered.1 ordered.2
  | shallowNext target =>
      obtain ⟨c', called, holds', -⟩ := list.shallowNext_holds few holds ordered.1 ordered.2.1
      exact ⟨c', called, holds'⟩

/-- **Every allowed run.** -/
theorem calls_hold {c : Cursor} {s : Naive} (holds : c.Holds t docs tfs s) {calls : List Cursor.Call}
    (allowed : Naive.Allowed docs (fun s step => s.Ordered docs step ∧ s.Steps docs step) s calls) :
    ∃ c', calls.foldlM (Cursor.call P ix t codec) c = .ok c' ∧
      c'.Holds t docs tfs (calls.foldl (Naive.call docs) s) := by
  induction calls generalizing c s with
  | nil => exact ⟨c, rfl, holds⟩
  | cons step rest ih =>
      obtain ⟨⟨ordered, steps⟩, later⟩ := allowed
      obtain ⟨c', called, holds'⟩ := list.call_holds few holds ordered steps
      rw [List.foldlM_cons, called]
      exact ih holds' later

omit few in
theorem tf_eq {c : Cursor} {s : Naive} (holds : c.Holds t docs tfs s) (inside : s.index < docs.length) :
    c.tf = .ok (tfs.getD s.index 0) := by
  obtain ⟨pos_lt, place⟩ := holds.place inside
  rw [Cursor.tf, holds.tfs_eq, place]
  exact at_slice (list.lengths ▸ holds.n_eq ▸ pos_lt)

theorem lastOf_eq {c : Cursor} {s : Naive} (holds : c.Holds t docs tfs s) {j : Nat}
    (inside : j < Cursor.nb t) : c.lastOf ix t j = .ok (blockLastDoc docs j) := by
  have count := list.nb_eq few
  rw [Cursor.lastOf]
  by_cases several : 1 < Cursor.nb t
  · obtain ⟨b, found, same⟩ := list.last (count ▸ several) j (count ▸ inside)
    rw [if_pos (decide_eq_true several), at?_eq_ok found, ← same]
    rfl
  · obtain rfl : j = 0 := by omega
    rw [if_neg (by rwa [decide_eq_true_eq]), holds.single several]

theorem blockBound_eq {c : Cursor} (valid : c.blk < Cursor.nb t) :
    ∃ bound, c.blockBound ix t = .ok bound ∧ BoundOf ix t docs c.blk bound := by
  have count := list.nb_eq few
  rw [Cursor.blockBound]
  by_cases several : 1 < Cursor.nb t
  · obtain ⟨b, found, -⟩ := list.last (count ▸ several) c.blk (count ▸ valid)
    rw [if_pos (decide_eq_true several), at?_eq_ok found]
    refine ⟨b.bound, rfl, ?_⟩
    rw [BoundOf, if_pos (count ▸ several)]
    exact ⟨b, found, rfl⟩
  · rw [if_neg (by rwa [decide_eq_true_eq])]
    refine ⟨t.bound, rfl, ?_⟩
    rw [BoundOf, if_neg (count ▸ several)]

/-- **The posting cursor refines the plain iterator**, in every run whose targets keep to the order
and that steps only where there is a posting: the document and its frequency, the block after a
`shallow_next`, and what `find_block` answers from any start.  No read leaves its array. -/
theorem run_refines {calls : List Cursor.Call}
    (allowed : Naive.Allowed docs (fun s step => s.Ordered docs step ∧ s.Steps docs step) ⟨0, 0⟩ calls) :
    ∃ c, Cursor.run P ix t codec calls = .ok c ∧
      c.doc = (Naive.run docs calls).doc docs ∧
      ((Naive.run docs calls).index < docs.length → c.tf = .ok (tfs.getD (Naive.run docs calls).index 0)) ∧
      (∀ before target, calls = before ++ [.shallowNext target] →
        (c.blockValid t = true ↔ Naive.advance docs 0 target < docs.length) ∧
        (Naive.advance docs 0 target < docs.length →
          c.blockLast ix t = .ok (blockLastDoc docs (Naive.advance docs 0 target / kBlockSize)) ∧
          ∃ bound, c.blockBound ix t = .ok bound ∧
            BoundOf ix t docs (Naive.advance docs 0 target / kBlockSize) bound)) ∧
      ∀ b ≤ Cursor.nb t, ∀ target, ∃ m, c.findBlock ix t b target = .ok m ∧
        Turn (fun j => blockLastDoc docs j < target) b (Cursor.nb t) m := by
  obtain ⟨start, started, fresh⟩ := list.init_holds few
  obtain ⟨c, ran, holds⟩ := list.calls_hold few fresh allowed
  refine ⟨c, by rw [Cursor.run, started]; exact ran, holds.doc_eq, list.tf_eq holds, ?_,
    fun b inside target => list.findBlock_turn few holds.single inside⟩
  rintro before target rfl
  obtain ⟨front, ⟨⟨past_shallow, past_doc, -⟩, -⟩, -⟩ := Naive.allowed_append.mp allowed
  obtain ⟨c₀, ran₀, holds₀⟩ := list.calls_hold few fresh front
  obtain ⟨c', called, -, first⟩ := list.shallowNext_holds few holds₀ past_shallow past_doc
  obtain rfl : c = c' := by
    rw [List.foldlM_append, ran₀, ok_bind, List.foldlM_cons] at ran
    change (c₀.shallowNext ix t target >>= _) = _ at ran
    rw [called] at ran
    exact (Except.ok.inj ran).symm
  obtain ⟨in_block, past_end⟩ := turn_block list.ascending (advance_turn (Nat.zero_le _)) first
  have count := list.nb_eq few
  have valid (further : Naive.advance docs 0 target < docs.length) : c.blk < blockCount docs.length :=
    lt_of_le_of_ne first.high fun exhausted => absurd (past_end exhausted) further.ne
  refine ⟨?_, fun further => ?_⟩
  · rw [Cursor.blockValid, decide_eq_true_eq, count]
    exact ⟨fun inside => (in_block inside).1, valid⟩
  · have inside := valid further
    rw [(in_block inside).2]
    rw [← count] at inside
    refine ⟨?_, list.blockBound_eq few inside⟩
    rw [Cursor.blockLast, if_neg (Nat.not_le.mpr inside), list.lastOf_eq few holds inside]

end PostingList

/-! ## Indexes that hold posting lists -/

/-- A term of an index that was written and opened again is a posting list. -/
theorem PostingList.of_recovered {P : Platform} {has : Codec → Bool} {ds : DocStats} {ix : LexicalIndex}
    {before : List Merged} {merged : Merged} {t : TermInfo} {codec : Codec}
    (recovered : RecoveredTerm P has ds ix before merged t) (storable : merged.Storable has)
    (below_end : ∀ d ∈ merged.docs, d < kEnd) (present : has codec = true) :
    PostingList P ix t codec merged.docs merged.tfs where
  df := recovered.df
  lengths := storable.lengths
  nonempty := storable.nonempty
  ascending := storable.increasing
  below_end := below_end
  last several j inside := by
    obtain ⟨b, found, last, -⟩ := recovered.block several j inside
    exact ⟨b, found, last⟩
  decode := recovered.decode codec present

/-- An index of one term, with the postings of each codec. -/
def indexOf (docs tfs : List Nat) : LexicalIndex where
  stats := ⟨0, 0, 0, 0, 0, 0⟩
  avgdl := 1
  buildK1 := 1
  buildB := 1
  idfN := 0
  idfSumDl := 0
  globalDf := []
  docids := []
  doclen := []
  norms := []
  termStrings := []
  terms := []
  blocks := (List.range (blockCount docs.length)).map fun j =>
    ⟨blockLastDoc docs j, fun c => Codec.blockOffset c docs tfs j, .zero⟩
  postingsOf := fun c => some
    (encodeBlocks c (Codec.gapsM1 uint32Max docs) (Codec.tfsM1 tfs) (blockCount docs.length))

def termOf (docs : List Nat) : TermInfo := ⟨0, 0, docs.length, 0, fun _ => 0, 0, .zero⟩

/-- A packed block and a tail of two. -/
theorem dense_list : PostingList .plain (indexOf (List.range 130) (List.replicate 130 1))
    (termOf (List.range 130)) .bp128 (List.range 130) (List.replicate 130 1) where
  df := rfl
  lengths := rfl
  nonempty := by decide
  ascending := List.pairwise_lt_range
  below_end d mem := (List.mem_range.mp mem).trans (by decide)
  last := by decide +kernel
  decode := by decide +kernel

/-- The block pointer goes ahead and back. -/
theorem run_refines_dense : ∃ c, Cursor.run .plain (indexOf (List.range 130) (List.replicate 130 1))
    (termOf (List.range 130)) .bp128
      [.nextGeq 100, .shallowNext 129, .next, .nextGeq 129, .next, .shallowNext uint32Max] = .ok c ∧
    c.doc = kEnd ∧ c.blockValid (termOf (List.range 130)) = false := by
  obtain ⟨c, ran, doc, -, block, -⟩ := @PostingList.run_refines _ _ _ _ _ _ dense_list
    (by rw [List.length_range]; decide)
    [.nextGeq 100, .shallowNext 129, .next, .nextGeq 129, .next, .shallowNext uint32Max] (by
      simp only [Naive.Allowed, Naive.Ordered, Naive.Steps]
      decide +kernel)
  have valid := (block [.nextGeq 100, .shallowNext 129, .next, .nextGeq 129, .next] uint32Max rfl).1
  refine ⟨c, ran, doc.trans (by decide +kernel), ?_⟩
  rw [Bool.eq_false_iff, ne_eq, valid]
  decide +kernel

theorem short_list : PostingList .plain (indexOf [0, 5] [1, 1]) (termOf [0, 5]) .vbyte [0, 5] [1, 1] where
  df := rfl
  lengths := rfl
  nonempty := by decide
  ascending := by decide
  below_end := by decide
  last := by decide +kernel
  decode := by decide +kernel

/-- A list that `next_geq` left at its end goes on when it is stepped. -/
theorem run_resumes : ¬∀ (P : Platform) (ix : LexicalIndex) (t : TermInfo) (codec : Codec)
    (docs tfs : List Nat), PostingList P ix t codec docs tfs → ∀ calls,
      Naive.Allowed docs (Naive.Ordered docs) ⟨0, 0⟩ calls →
        ∃ c, Cursor.run P ix t codec calls = .ok c ∧ c.doc = (Naive.run docs calls).doc docs := by
  intro refines
  obtain ⟨c, ran, doc⟩ := refines _ _ _ _ _ _ short_list [.nextGeq 10, .next] (by
    simp only [Naive.Allowed, Naive.Ordered]
    decide +kernel)
  have goes_on : (Cursor.run .plain (indexOf [0, 5] [1, 1]) (termOf [0, 5]) .vbyte
      [.nextGeq 10, .next]).map Cursor.doc = .ok 5 := by
    decide +kernel
  rw [ran] at goes_on
  have five : c.doc = 5 := Except.ok.inj goes_on
  rw [doc] at five
  exact absurd five (by decide +kernel)

end HybridSearch.Engine
