/-
# Engine.Clauses -- the clauses of a query and the cursors on them

`Clause.Good` is what a search relies on: the clause walks a posting list, and its bounds
are bounds of the contributions.  A slot is `At` a frontier when none of the clause's
documents from the frontier on lies before its cursor.  Each call moves the frontier of
its slot and keeps the rest (`next_at`, `nextGeq_at`, `shallowNext_at`).
-/
import HybridSearch.Engine.PrunedSearch
import HybridSearch.Engine.Frontier

namespace HybridSearch.Engine

open HybridSearch.Theory

set_option autoImplicit false

/-- A clause with its posting list. -/
@[ext] structure Clause where
  term : QTerm
  info : TermInfo
  docs : List Nat
  tfs : List Nat

namespace Clause

variable (sc : Scorer)

/-- What the clause adds to the score of a document. -/
def gain (c : Clause) (d : Nat) : ℚ :=
  if d ∈ c.docs then sc.contrib c.term.weight d (c.tfs.getD (c.docs.idxOf d) 0) else 0

structure Good (P : Platform) (ix : LexicalIndex) (codec : Codec) (c : Clause) : Prop where
  list : PostingList P ix c.info codec c.docs c.tfs
  few : c.docs.length + 127 < 2 ^ 32
  nonneg : ∀ d ∈ c.docs, 0 ≤ c.gain sc d
  bounded : ∀ d ∈ c.docs, c.gain sc d ≤ c.term.ub
  block : ∀ d ∈ c.docs, ∀ bound, BoundOf ix c.info c.docs (c.docs.idxOf d / kBlockSize) bound →
    c.gain sc d ≤ sc.bound c.term.weight bound

theorem Good.gain_nonneg {sc : Scorer} {P : Platform} {ix : LexicalIndex} {codec : Codec} {c : Clause}
    (good : c.Good sc P ix codec) (d : Nat) : 0 ≤ c.gain sc d := by
  by_cases mem : d ∈ c.docs
  · exact good.nonneg d mem
  · rw [gain, if_neg mem]

end Clause

/-- The posting list of a clause of the query. -/
structure ClauseOf (P : Platform) (ix : LexicalIndex) (codec : Codec) (sc : Scorer) (t : QTerm) (c : Clause) :
    Prop where
  term : c.term = t
  found : ix.terms[t.id]? = some c.info
  good : c.Good sc P ix codec

theorem ClauseOf.good_all {P : Platform} {ix : LexicalIndex} {codec : Codec} {sc : Scorer} {terms : List QTerm}
    {clauses : List Clause} (of : List.Forall₂ (ClauseOf P ix codec sc) terms clauses) :
    ∀ c ∈ clauses, c.Good sc P ix codec := by
  intro c mem
  induction of with
  | nil => cases mem
  | cons here _ ih =>
      rcases List.mem_cons.mp mem with rfl | later
      · exact here.good
      · exact ih later

/-- The slot stands on the clause, and its cursor has passed no document from `F` on. -/
structure Slot.At (c : Clause) (F shallow : Nat) (slot : Slot) : Prop where
  term : slot.term = c.term
  info : slot.info = c.info
  holds : ∃ s, Cursor.Holds c.info c.docs c.tfs slot.cur s ∧ s.shallow ≤ shallow
  reach : ∀ d ∈ c.docs, F ≤ d → slot.doc ≤ d

section Calls

variable {P : Platform} {ix : LexicalIndex} {codec : Codec} {sc : Scorer} {c : Clause} {slot : Slot}
  {F shallow : Nat}

namespace Slot.At

theorem mono (stands : slot.At c F shallow) {F' shallow' : Nat} (le : F ≤ F') (le' : shallow ≤ shallow') :
    slot.At c F' shallow' where
  term := stands.term
  info := stands.info
  holds := stands.holds.imp fun _ both => ⟨both.1, both.2.trans le'⟩
  reach d mem low := stands.reach d mem (le.trans low)

variable (good : c.Good sc P ix codec)
include good

omit good in
theorem doc_mem (stands : slot.At c F shallow) (inside : slot.doc < kEnd) : slot.doc ∈ c.docs := by
  obtain ⟨s, holds, -⟩ := stands.holds
  have inDocs : s.index < c.docs.length := by
    by_contra past
    rw [Slot.doc, holds.doc_eq, PostingList.doc_end (Nat.not_lt.mp past)] at inside
    exact absurd inside (lt_irrefl _)
  rw [Slot.doc, holds.doc_eq, Naive.doc, List.getD_eq_getElem _ _ inDocs]
  exact List.getElem_mem inDocs

theorem doc_le (stands : slot.At c F shallow) : slot.doc ≤ kEnd := by
  by_contra past
  obtain ⟨s, holds, -⟩ := stands.holds
  rcases Nat.lt_or_ge s.index c.docs.length with inDocs | atEnd
  · have low := good.list.doc_lt_end inDocs
    rw [Slot.doc, holds.doc_eq, PostingList.doc_inside inDocs] at past
    exact past low.le
  · rw [Slot.doc, holds.doc_eq, PostingList.doc_end atEnd] at past
    exact past le_rfl

theorem contrib_eq (stands : slot.At c F shallow) (inside : slot.doc < kEnd) :
    slot.contrib sc slot.doc = .ok (c.gain sc slot.doc) := by
  have mem := stands.doc_mem inside
  obtain ⟨s, holds, -⟩ := stands.holds
  have inDocs : s.index < c.docs.length := by
    by_contra past
    rw [Slot.doc, holds.doc_eq, PostingList.doc_end (Nat.not_lt.mp past)] at inside
    exact absurd inside (lt_irrefl _)
  have place : c.docs.idxOf slot.doc = s.index := by
    have nodup : c.docs.Nodup := good.list.ascending.imp fun less => Nat.ne_of_lt less
    rw [Slot.doc, holds.doc_eq, Naive.doc, List.getD_eq_getElem _ _ inDocs]
    exact nodup.idxOf_getElem _ inDocs
  rw [Slot.contrib, good.list.tf_eq holds inDocs, ok_bind, Clause.gain, if_pos mem, place, stands.term]
  rfl

/-- The place of a document the cursor has not passed. -/
theorem place_of_le {s : Naive} (holds : Cursor.Holds c.info c.docs c.tfs slot.cur s)
    {d : Nat} (mem : d ∈ c.docs) (le : slot.doc ≤ d) :
    ∃ j, j < c.docs.length ∧ c.docs.getD j 0 = d ∧ s.index ≤ j := by
  obtain ⟨j, j_lt, rfl⟩ := List.mem_iff_getElem.mp mem
  have here := List.getD_eq_getElem c.docs 0 j_lt
  refine ⟨j, j_lt, here, ?_⟩
  by_contra before
  have inDocs : s.index < c.docs.length ∨ c.docs.length ≤ s.index := Nat.lt_or_ge _ _
  rcases inDocs with inDocs | atEnd
  · have less := getD_lt_getD (d := 0) good.list.ascending (Nat.not_le.mp before) inDocs
    rw [Slot.doc, holds.doc_eq, PostingList.doc_inside inDocs, ← here] at le
    omega
  · have low := good.list.doc_lt_end j_lt
    rw [Slot.doc, holds.doc_eq, PostingList.doc_end atEnd, ← here] at le
    omega

/-- **`next()`** steps over its document. -/
theorem next_at (stands : slot.At c F shallow) (inside : slot.doc < kEnd) :
    ∃ slot', slot.next P ix codec = .ok slot' ∧ slot'.At c (max F (slot.doc + 1)) shallow ∧
      slot.doc < slot'.doc ∧ slot'.canon = slot.canon := by
  obtain ⟨s, holds, low⟩ := stands.holds
  have inDocs : s.index < c.docs.length := by
    by_contra past
    rw [Slot.doc, holds.doc_eq, PostingList.doc_end (Nat.not_lt.mp past)] at inside
    exact absurd inside (lt_irrefl _)
  obtain ⟨cur, stepped, holds'⟩ := good.list.next_holds good.few holds inDocs
  have step : (s.call c.docs .next).index = s.index + 1 := Nat.min_eq_left inDocs
  have here : slot.doc = c.docs.getD s.index 0 := by
    rw [Slot.doc, holds.doc_eq, PostingList.doc_inside inDocs]
  have there {j : Nat} (j_lt : j < c.docs.length) (later : s.index + 1 ≤ j) : cur.doc ≤ c.docs.getD j 0 := by
    rw [holds'.doc_eq, PostingList.doc_inside (step ▸ later.trans_lt j_lt), step]
    exact getD_le_getD good.list.ascending later j_lt
  refine ⟨{ slot with cur }, ?_, ⟨stands.term, stands.info, ⟨_, holds', low⟩, fun d mem le => ?_⟩, ?_, rfl⟩
  · rw [Slot.next, stands.info, stepped]
    rfl
  · obtain ⟨j, j_lt, rfl, place⟩ := place_of_le good holds mem
      (stands.reach d mem ((le_max_left _ _).trans le))
    refine there j_lt (lt_of_le_of_ne place fun same => ?_)
    rw [← same, ← here] at le
    omega
  · show slot.doc < cur.doc
    rw [here, holds'.doc_eq]
    rcases Nat.lt_or_ge (s.index + 1) c.docs.length with more | atEnd
    · rw [PostingList.doc_inside (step ▸ more), step]
      exact getD_lt_getD good.list.ascending (Nat.lt_succ_self _) more
    · rw [PostingList.doc_end (step ▸ atEnd)]
      exact good.list.doc_lt_end inDocs

/-- **`next_geq()`** stops at the first document that reaches the target. -/
theorem nextGeq_at (stands : slot.At c F shallow) {target : Nat} (past_shallow : shallow ≤ target)
    (small : target ≤ kEnd) :
    ∃ slot', slot.nextGeq P ix codec target = .ok slot' ∧ slot'.At c (max F target) shallow ∧
      target ≤ slot'.doc ∧ slot.doc ≤ slot'.doc ∧ slot'.canon = slot.canon := by
  obtain ⟨s, holds, low⟩ := stands.holds
  obtain ⟨cur, moved, holds'⟩ := good.list.nextGeq_holds good.few holds (low.trans past_shallow)
    (Nat.lt_of_le_of_lt small (by decide))
  have turn := @advance_turn c.docs s.index target holds.inside
  have cur_doc : cur.doc = c.docs.getD (Naive.advance c.docs s.index target) kEnd := holds'.doc_eq
  have reached : target ≤ cur.doc := by
    rw [cur_doc]
    rcases Nat.lt_or_ge (Naive.advance c.docs s.index target) c.docs.length with inDocs | atEnd
    · have stop := turn.stop inDocs
      rw [List.getD_eq_getElem _ _ inDocs] at stop ⊢
      exact Nat.not_lt.mp stop
    · rw [List.getD_eq_default _ _ atEnd]
      exact small
  have there {j : Nat} (j_lt : j < c.docs.length) (later : s.index ≤ j) (le : target ≤ c.docs.getD j 0) :
      cur.doc ≤ c.docs.getD j 0 := by
    have first : Naive.advance c.docs s.index target ≤ j := by
      by_contra before
      exact absurd (turn.before j later (Nat.not_le.mp before)) (Nat.not_lt.mpr le)
    have inDocs := first.trans_lt j_lt
    rw [cur_doc, List.getD_eq_getElem _ _ inDocs, ← List.getD_eq_getElem _ 0 inDocs]
    exact getD_le_getD good.list.ascending first j_lt
  refine ⟨{ slot with cur }, ?_, ⟨stands.term, stands.info, ⟨_, holds', low⟩, fun d mem le => ?_⟩, reached, ?_, rfl⟩
  · rw [Slot.nextGeq, stands.info, moved]
    rfl
  · obtain ⟨j, j_lt, rfl, place⟩ := place_of_le good holds mem
      (stands.reach d mem ((le_max_left _ _).trans le))
    exact there j_lt place ((le_max_right _ _).trans le)
  · show slot.doc ≤ cur.doc
    rw [Slot.doc, holds.doc_eq, cur_doc, Naive.doc]
    rcases Nat.lt_or_ge (Naive.advance c.docs s.index target) c.docs.length with inDocs | atEnd
    · have before := turn.low.trans_lt inDocs
      rw [List.getD_eq_getElem _ _ inDocs, List.getD_eq_getElem _ _ before, ← List.getD_eq_getElem _ 0 inDocs,
        ← List.getD_eq_getElem _ 0 before]
      exact getD_le_getD good.list.ascending turn.low inDocs
    · rw [List.getD_eq_default _ _ atEnd]
      exact holds.doc_eq.ge.trans (stands.doc_le good)

omit good in
/-- The documents of the block that a target falls in. -/
theorem block_of {docs : List Nat} (ascending : docs.Pairwise (· < ·)) {target b d : Nat}
    (turn : BinarySearch.Turn (fun j => blockLastDoc docs j < target) 0 (blockCount docs.length) b)
    (mem : d ∈ docs) (low : target ≤ d) :
    b < blockCount docs.length ∧ (d ≤ blockLastDoc docs b → docs.idxOf d / kBlockSize = b) := by
  obtain ⟨i, i_lt, rfl⟩ := List.mem_iff_getElem.mp mem
  have nodup : docs.Nodup := ascending.imp fun less => Nat.ne_of_lt less
  rw [nodup.idxOf_getElem i i_lt]
  rw [← List.getD_eq_getElem docs 0 i_lt] at low ⊢
  have own := le_blockLastDoc ascending i_lt
  have first : b ≤ i / kBlockSize := by
    by_contra before
    exact absurd (turn.before _ (Nat.zero_le _) (Nat.not_le.mp before)) (Nat.not_lt.mpr (low.trans own))
  have inside : i / kBlockSize < blockCount docs.length := by
    simp only [blockCount, kBlockSize]
    omega
  refine ⟨first.trans_lt inside, fun le => ?_⟩
  by_contra other
  exact absurd (blockLastDoc_lt ascending (lt_of_le_of_ne first fun same => other same.symm) i_lt)
    (Nat.not_lt.mpr le)

/-- **`shallow_next()`** leaves the cursor on its document, and its block bound holds for the
documents from the target to the end of the block. -/
theorem shallowNext_at (stands : slot.At c F shallow) {target : Nat} (past_shallow : shallow ≤ target)
    (past_doc : slot.doc ≤ target) :
    ∃ slot', slot.shallowNext ix target = .ok slot' ∧ slot'.At c F target ∧ slot'.doc = slot.doc ∧
      slot'.canon = slot.canon ∧
      ((slot'.cur.blockValid slot'.info = false ∧ slot'.cur.blockLast ix slot'.info = .ok (kEnd - 1) ∧
          ∀ d ∈ c.docs, d < target) ∨
        slot'.cur.blockValid slot'.info = true ∧
          ∃ last bound, slot'.cur.blockLast ix slot'.info = .ok last ∧ last < kEnd ∧ target ≤ last ∧
            slot'.cur.blockBound ix slot'.info = .ok bound ∧ 0 ≤ sc.bound slot'.term.weight bound ∧
            ∀ d ∈ c.docs, target ≤ d → d ≤ last → c.gain sc d ≤ sc.bound slot'.term.weight bound) := by
  obtain ⟨s, holds, low⟩ := stands.holds
  have doc_eq : s.doc c.docs = slot.doc := holds.doc_eq.symm
  obtain ⟨cur, moved, holds', turn⟩ := good.list.shallowNext_holds good.few holds (low.trans past_shallow)
    (doc_eq ▸ past_doc)
  have count := good.list.nb_eq good.few
  have same_doc : cur.doc = slot.doc := holds'.doc_eq.trans (doc_eq ▸ rfl)
  refine ⟨{ slot with cur }, ?_, ⟨stands.term, stands.info, ⟨_, holds', le_rfl⟩, fun d mem le => ?_⟩, same_doc, rfl, ?_⟩
  · rw [Slot.shallowNext, stands.info, moved]
    rfl
  · exact same_doc.trans_le (stands.reach d mem le)
  · dsimp only
    rw [stands.info, stands.term, Cursor.blockValid, Cursor.blockLast]
    rcases Nat.lt_or_ge cur.blk (Cursor.nb c.info) with inside | past
    · obtain ⟨bound, read, is_bound⟩ := good.list.blockBound_eq good.few inside
      have le_last : target ≤ blockLastDoc c.docs cur.blk := Nat.not_lt.mp (turn.stop (count ▸ inside))
      have of_block {d : Nat} (mem : d ∈ c.docs) (low : target ≤ d) (high : d ≤ blockLastDoc c.docs cur.blk) :
          c.gain sc d ≤ sc.bound c.term.weight bound := by
        refine good.block d mem bound ?_
        rw [(block_of good.list.ascending turn mem low).2 high]
        exact is_bound
      have last_mem := blockLastDoc_mem good.list.nonempty cur.blk
      refine .inr ⟨decide_eq_true inside, _, bound, ?_, good.list.last_lt_end _, le_last, read,
        (good.nonneg _ last_mem).trans (of_block last_mem le_last le_rfl), fun d => of_block⟩
      rw [if_neg (Nat.not_le.mpr inside), good.list.lastOf_eq good.few holds' inside]
    · refine .inl ⟨decide_eq_false (Nat.not_lt.mpr past), if_pos past, fun d mem => ?_⟩
      by_contra high
      exact absurd (block_of good.list.ascending turn mem (Nat.not_lt.mp high)).1 (count ▸ Nat.not_lt.mpr past)

end Slot.At

end Calls

/-! ## The slots of a query -/

section Slots

variable (sc : Scorer) (clauses : List Clause)

/-- What clause `t` adds to the score of `d`. -/
def gainAt (t d : Nat) : ℚ := (clauses[t]?.map fun c => c.gain sc d).getD 0

def score (d : Nat) : ℚ := ((List.range clauses.length).map fun t => gainAt sc clauses t d).sum

def matched (d : Nat) : Prop := ∃ c ∈ clauses, d ∈ c.docs

instance : DecidablePred (matched clauses) := fun _ => inferInstanceAs (Decidable (∃ c ∈ clauses, _))

def Slot.On (F shallow : Nat) (slot : Slot) : Prop :=
  ∃ c, clauses[slot.canon]? = some c ∧ slot.At c F shallow

/-- How many of its postings the slot has not passed. -/
def Slot.remaining (slot : Slot) : Nat :=
  ((clauses[slot.canon]?.map Clause.docs).getD []).countP fun d => decide (slot.doc ≤ d)

def remaining (slots : List Slot) : Nat := (slots.map (Slot.remaining clauses)).sum

/-- The slots of all clauses, none of which has passed a document from `F` on. -/
structure Walk (F shallow : Nat) (slots : List Slot) : Prop where
  canons : (slots.map Slot.canon).Perm (List.range clauses.length)
  on : ∀ slot ∈ slots, slot.On clauses F shallow

variable {sc clauses} {P : Platform} {ix : LexicalIndex} {codec : Codec}
  (good : ∀ c ∈ clauses, c.Good sc P ix codec) {slot : Slot} {F shallow : Nat}

include good in
theorem gainAt_nonneg (t d : Nat) : 0 ≤ gainAt sc clauses t d := by
  rw [gainAt]
  cases found : clauses[t]? with
  | none => exact le_rfl
  | some c => exact (good c (List.mem_of_getElem? found)).gain_nonneg d

namespace Slot.On

theorem mono (on : slot.On clauses F shallow) {F' shallow' : Nat} (le : F ≤ F') (le' : shallow ≤ shallow') :
    slot.On clauses F' shallow' :=
  on.imp fun _ both => ⟨both.1, both.2.mono le le'⟩

include good

theorem doc_le (on : slot.On clauses F shallow) : slot.doc ≤ kEnd := by
  obtain ⟨c, found, stands⟩ := on
  exact stands.doc_le (good c (List.mem_of_getElem? found))

omit good in
theorem matched_doc (on : slot.On clauses F shallow) (inside : slot.doc < kEnd) : matched clauses slot.doc := by
  obtain ⟨c, found, stands⟩ := on
  exact ⟨c, List.mem_of_getElem? found, stands.doc_mem inside⟩

theorem gain_le (on : slot.On clauses F shallow) (d : Nat) : gainAt sc clauses slot.canon d ≤ slot.term.ub := by
  obtain ⟨c, found, stands⟩ := on
  have c_good := good c (List.mem_of_getElem? found)
  rw [gainAt, found, stands.term]
  show c.gain sc d ≤ c.term.ub
  by_cases mem : d ∈ c.docs
  · exact c_good.bounded d mem
  · rw [Clause.gain, if_neg mem]
    obtain ⟨e, rest, docs⟩ := List.exists_cons_of_ne_nil c_good.list.nonempty
    have inDocs : e ∈ c.docs := docs ▸ List.mem_cons_self ..
    exact (c_good.nonneg e inDocs).trans (c_good.bounded e inDocs)

theorem ub_nonneg (on : slot.On clauses F shallow) : 0 ≤ slot.term.ub :=
  (gainAt_nonneg good slot.canon 0).trans (on.gain_le good 0)

omit good in
/-- The clause says nothing of documents its cursor is past. -/
theorem gain_eq_zero (on : slot.On clauses F shallow) {d : Nat} (low : F ≤ d) (past : d < slot.doc) :
    gainAt sc clauses slot.canon d = 0 := by
  obtain ⟨c, found, stands⟩ := on
  rw [gainAt, found]
  show c.gain sc d = 0
  rw [Clause.gain, if_neg]
  exact fun mem => absurd (stands.reach d mem low) (Nat.not_le.mpr past)

theorem contrib_eq (on : slot.On clauses F shallow) (inside : slot.doc < kEnd) :
    slot.contrib sc slot.doc = .ok (gainAt sc clauses slot.canon slot.doc) := by
  obtain ⟨c, found, stands⟩ := on
  rw [gainAt, found]
  exact stands.contrib_eq (good c (List.mem_of_getElem? found)) inside

omit good in
theorem remaining_lt (on : slot.On clauses F shallow) (inside : slot.doc < kEnd) {slot' : Slot}
    (same : slot'.canon = slot.canon) (further : slot.doc < slot'.doc) :
    slot'.remaining clauses < slot.remaining clauses := by
  obtain ⟨c, found, stands⟩ := on
  have mem := stands.doc_mem inside
  rw [Slot.remaining, Slot.remaining, same, found]
  show c.docs.countP _ < c.docs.countP _
  obtain ⟨front, back, docs⟩ := List.append_of_mem mem
  rw [docs]
  simp only [List.countP_append, List.countP_cons, le_refl, decide_true, if_true]
  have fewer (l : List Nat) : l.countP (fun d => decide (slot'.doc ≤ d)) ≤ l.countP fun d => decide (slot.doc ≤ d) :=
    List.countP_mono_left fun d _ le => decide_eq_true (further.le.trans (of_decide_eq_true le))
  rw [if_neg (by simpa using further)]
  have := fewer front
  have := fewer back
  omega

omit good in
theorem remaining_le {slot' : Slot} (same : slot'.canon = slot.canon) (further : slot.doc ≤ slot'.doc) :
    slot'.remaining clauses ≤ slot.remaining clauses := by
  rw [Slot.remaining, Slot.remaining, same]
  exact List.countP_mono_left fun d _ le => decide_eq_true (further.trans (of_decide_eq_true le))

theorem next_on (on : slot.On clauses F shallow) (inside : slot.doc < kEnd) :
    ∃ slot', slot.next P ix codec = .ok slot' ∧ slot'.On clauses (max F (slot.doc + 1)) shallow ∧
      slot.doc < slot'.doc ∧ slot'.canon = slot.canon ∧ slot'.remaining clauses < slot.remaining clauses := by
  obtain ⟨c, found, stands⟩ := id on
  obtain ⟨slot', stepped, stands', further, same⟩ := stands.next_at (good c (List.mem_of_getElem? found)) inside
  exact ⟨slot', stepped, ⟨c, same ▸ found, stands'⟩, further, same, on.remaining_lt inside same further⟩

theorem nextGeq_on (on : slot.On clauses F shallow) {target : Nat} (past_shallow : shallow ≤ target)
    (small : target ≤ kEnd) :
    ∃ slot', slot.nextGeq P ix codec target = .ok slot' ∧ slot'.On clauses (max F target) shallow ∧
      target ≤ slot'.doc ∧ slot.doc ≤ slot'.doc ∧ slot'.canon = slot.canon := by
  obtain ⟨c, found, stands⟩ := on
  obtain ⟨slot', moved, stands', reached, further, same⟩ :=
    stands.nextGeq_at (good c (List.mem_of_getElem? found)) past_shallow small
  exact ⟨slot', moved, ⟨c, same ▸ found, stands'⟩, reached, further, same⟩

end Slot.On

variable (clauses) in
/-- The bound of clause `t`. -/
def ubAt (t : Nat) : ℚ := (clauses[t]?.map fun c => c.term.ub).getD 0

theorem Slot.On.ub_eq (on : slot.On clauses F shallow) : slot.term.ub = ubAt clauses slot.canon := by
  obtain ⟨c, found, stands⟩ := on
  rw [ubAt, found, stands.term]
  rfl

end Slots

end HybridSearch.Engine
