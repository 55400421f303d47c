/-
# Engine.Exhaustive -- term-at-a-time search and its thread-local scratch

`run_exhaustive` adds every contribution to an accumulator array that lives as
long as the thread: `acc` and `seen` only ever grow, and a search takes back
what it wrote by walking its `touched` list at the end.  `Clean` is what it
relies on at its start.

`blocksOf` is what a search reads, apart from any scratch: the blocks the loops
decode until the postings end, the deadline fires or `decode_block` throws.

* `runExhaustive_eq_fresh`: on clean scratch a search answers what it answers
  on a fresh thread, and it leaves clean scratch unless it throws after a block;
* `exhaustive_never_leaks`: so do all searches of a run none of whose searches
  throws after a block;
* `exhaustive_leaks`: an exception after a block leaves its scores behind.
-/
import HybridSearch.Engine.Deadline
import HybridSearch.Engine.Query
import HybridSearch.Engine.TopK
import HybridSearch.Theory.Transition

namespace HybridSearch.Engine

open HybridSearch.Theory

set_option autoImplicit false

/-! ## The search -/

/-- The `thread_local` vectors. -/
structure Scratch where
  acc : List ℚ
  seen : List Bool
  touched : List Nat
  deriving DecidableEq

namespace Scratch

/-- A thread that has not searched yet. -/
def fresh : Scratch := ⟨[], [], []⟩

/-- Growth, only when the index is larger than any before it. -/
def prepare (s : Scratch) (numDocs : Nat) : Scratch :=
  if s.acc.length < numDocs then
    { acc := List.replicate numDocs 0, seen := List.replicate numDocs false, touched := [] }
  else { s with touched := [] }

/-- One posting; `none` when it is outside the arrays. -/
def add (s : Scratch) (d : Nat) (contrib : ℚ) : Option Scratch :=
  match s.seen[d]?, s.acc[d]? with
  | some true, some a => some { s with acc := s.acc.set d (a + contrib) }
  | some false, some a =>
      some ⟨s.acc.set d (a + contrib), s.seen.set d true, s.touched ++ [d]⟩
  | _, _ => none

def addAll (s : Scratch) (postings : List (Nat × ℚ)) : Option Scratch :=
  postings.foldlM (fun s posting => s.add posting.1 posting.2) s

/-- The final loop: push what was touched, and take it back. -/
def drain (s : Scratch) (top : TopK) : TopK × Scratch :=
  s.touched.foldl (fun (top, s) d =>
    ((top.push d (s.acc.getD d 0)).2, { s with acc := s.acc.set d 0, seen := s.seen.set d false }))
    (top, s)

end Scratch

/-- How the loops over the postings end. -/
inductive Exit
  | done
  /-- `res.partial`: the deadline fired. -/
  | cut
  | threw (what : String)
  deriving DecidableEq, Repr

/-- One call of `LexicalIndex::search` with `Algorithm::Exhaustive`. -/
structure Search where
  P : Platform
  ix : LexicalIndex
  rawTerms : List Bytes
  opt : SearchOptions
  deadline : Deadline

structure LexicalResult where
  hits : List ScoredDoc
  isPartial : Bool
  deriving DecidableEq, Repr

section Loops

variable (haveNeon : Bool) (codec : Codec) (contrib : Nat → Nat → ℚ)

/-- The postings of a decoded block, with their contributions. -/
def contributions (block : List Nat × List Nat) : List (Nat × ℚ) :=
  (block.1.zip block.2).map fun posting => (posting.1, contrib posting.1 posting.2)

/-- The block loop of one term: `left` blocks from block `j` on, at `p`, after document `prev`.
`none` is undefined behaviour: a read past the postings or outside the arrays. -/
def blockLoop (df : Nat) : Nat → Nat → Bytes → Nat → Scratch → Deadline →
    Option (Exit × Scratch × Deadline)
  | 0, _, _, _, s, dl => some (.done, s, dl)
  | left + 1, j, p, prev, s, dl =>
      let (fired, dl) := dl.expiredEvery 8
      if fired then some (.cut, s, dl)
      else
        match (decodeBlock haveNeon codec (min kBlockSize (df - j * kBlockSize)) prev).run p with
        | .error (.thrown what) => some (.threw what, s, dl)
        | .error _ => none
        | .ok (block, p) =>
            match s.addAll (contributions contrib block) with
            | none => none
            | some s => blockLoop df left (j + 1) p (block.1.getLastD prev) s dl

end Loops

def termLoop (haveNeon : Bool) (ix : LexicalIndex) (codec : Codec) (sc : Scorer) :
    List QTerm → Scratch → Deadline → Option (Exit × Scratch × Deadline)
  | [], s, dl => some (.done, s, dl)
  | t :: rest, s, dl =>
      match ix.terms[t.id]?, ix.postingsOf codec with
      | some ti, some data =>
          match blockLoop haveNeon codec (sc.contrib t.weight) ti.df (blockCount32 ti.df) 0
              (data.drop (ti.postOff codec)) uint32Max s dl with
          | none => none
          | some (.done, s, dl) => termLoop haveNeon ix codec sc rest s dl
          | some (exit, s, dl) => some (exit, s, dl)
      | _, _ => none

/-- `run_exhaustive` on the thread's scratch: the result or the exception, and the scratch it
leaves.  An exception leaves in the middle of the loops. -/
def runExhaustive (haveNeon : Bool) (ix : LexicalIndex) (q : Query) (codec : Codec) (k : Nat)
    (s : Scratch) (dl : Deadline) : Option (Except String LexicalResult × Scratch) :=
  match termLoop haveNeon ix codec q.sc q.terms (s.prepare ix.stats.numDocs) dl with
  | none => none
  | some (.threw what, s, _) => some (.error what, s)
  | some (exit, s, _) =>
      let (top, s) := s.drain (TopK.empty k)
      some (.ok ⟨top.takeSorted, exit = .cut⟩, s)

/-- The whole call. -/
def Search.run (c : Search) (s : Scratch) : Option (Except String LexicalResult × Scratch) :=
  match c.ix.query c.P c.opt c.rawTerms with
  | .error _ => none
  | .ok q =>
      if q.terms = [] ∨ c.opt.k = 0 then some (.ok ⟨[], false⟩, s)
      else runExhaustive c.P.haveNeon c.ix q (c.ix.codecFor c.opt.codec) c.opt.k s c.deadline

/-! ## What a search reads -/

theorem Scratch.addAll_append (s : Scratch) (front back : List (Nat × ℚ)) :
    s.addAll (front ++ back) = (s.addAll front).bind fun s => s.addAll back :=
  List.foldlM_append

section Scan

variable (haveNeon : Bool) (codec : Codec) (contrib : Nat → Nat → ℚ)

/-- The postings `blockLoop` adds, and how it ends. -/
def blockScan (df : Nat) : Nat → Nat → Bytes → Nat → Deadline →
    Option (List (Nat × ℚ) × Exit × Deadline)
  | 0, _, _, _, dl => some ([], .done, dl)
  | left + 1, j, p, prev, dl =>
      let (fired, dl) := dl.expiredEvery 8
      if fired then some ([], .cut, dl)
      else
        match (decodeBlock haveNeon codec (min kBlockSize (df - j * kBlockSize)) prev).run p with
        | .error (.thrown what) => some ([], .threw what, dl)
        | .error _ => none
        | .ok (block, p) =>
            (blockScan df left (j + 1) p (block.1.getLastD prev) dl).map fun (ps, exit, dl) =>
              (contributions contrib block ++ ps, exit, dl)

theorem blockLoop_eq (df left j : Nat) (p : Bytes) (prev : Nat) (s : Scratch) (dl : Deadline) :
    blockLoop haveNeon codec contrib df left j p prev s dl =
      (blockScan haveNeon codec contrib df left j p prev dl).bind fun (ps, exit, dl) =>
        (s.addAll ps).map fun s => (exit, s, dl) := by
  induction left generalizing j p prev s dl with
  | zero => rfl
  | succ left ih =>
      simp only [blockLoop, blockScan]
      split
      · rfl
      · split
        · rfl
        · rfl
        · rename_i block p' read
          cases scanned : blockScan haveNeon codec contrib df left (j + 1) p'
              (block.1.getLastD prev) (dl.expiredEvery 8).2 with
          | none =>
              cases s.addAll (contributions contrib block) with
              | none => rfl
              | some s' => simp only [ih, scanned, Option.map_none, Option.bind_none]
          | some later =>
              simp only [Option.map_some, Option.bind_some, Scratch.addAll_append]
              cases s.addAll (contributions contrib block) with
              | none => rfl
              | some s' => simp only [ih, scanned, Option.bind_some]

end Scan

def termScan (haveNeon : Bool) (ix : LexicalIndex) (codec : Codec) (sc : Scorer) :
    List QTerm → Deadline → Option (List (Nat × ℚ) × Exit × Deadline)
  | [], dl => some ([], .done, dl)
  | t :: rest, dl =>
      match ix.terms[t.id]?, ix.postingsOf codec with
      | some ti, some data =>
          match blockScan haveNeon codec (sc.contrib t.weight) ti.df (blockCount32 ti.df) 0
              (data.drop (ti.postOff codec)) uint32Max dl with
          | none => none
          | some (ps, .done, dl) =>
              (termScan haveNeon ix codec sc rest dl).map fun (more, exit, dl) =>
                (ps ++ more, exit, dl)
          | some (ps, exit, dl) => some (ps, exit, dl)
      | _, _ => none

theorem termLoop_eq (haveNeon : Bool) (ix : LexicalIndex) (codec : Codec) (sc : Scorer)
    (terms : List QTerm) (s : Scratch) (dl : Deadline) :
    termLoop haveNeon ix codec sc terms s dl =
      (termScan haveNeon ix codec sc terms dl).bind fun (ps, exit, dl) =>
        (s.addAll ps).map fun s => (exit, s, dl) := by
  induction terms generalizing s dl with
  | nil => rfl
  | cons t rest ih =>
      simp only [termLoop, termScan, blockLoop_eq]
      split
      · rename_i ti data _ _
        cases blockScan haveNeon codec (sc.contrib t.weight) ti.df (blockCount32 ti.df) 0
          (data.drop (ti.postOff codec)) uint32Max dl with
        | none => rfl
        | some scanned =>
            obtain ⟨ps, exit, dl'⟩ := scanned
            simp only [Option.bind_some]
            cases added : s.addAll ps with
            | none =>
                cases exit with
                | done =>
                    simp only [Option.map_none]
                    cases termScan haveNeon ix codec sc rest dl' with
                    | none => rfl
                    | some later =>
                        simp only [Option.map_some, Option.map_none, Option.bind_some,
                          Scratch.addAll_append, added, Option.bind_none]
                | cut => simp only [Option.map_none, Option.bind_some, added]
                | threw what => simp only [Option.map_none, Option.bind_some, added]
            | some s' =>
                cases exit with
                | done =>
                    simp only [Option.map_some, ih]
                    cases termScan haveNeon ix codec sc rest dl' with
                    | none => rfl
                    | some later =>
                        simp only [Option.map_some, Option.bind_some, Scratch.addAll_append, added]
                | cut => simp only [Option.map_some, Option.bind_some, added]
                | threw what => simp only [Option.map_some, Option.bind_some, added]
      · rfl

/-! ## Clean scratch -/

namespace Scratch

/-- `acc` all zero and `seen` all false. -/
structure Clean (s : Scratch) : Prop where
  sizes : s.seen.length = s.acc.length
  zero : ∀ d, s.acc.getD d 0 = 0
  unseen : ∀ d, s.seen.getD d false = false

/-- What has been written so far can be taken back from `touched`. -/
structure Tracked (s : Scratch) : Prop where
  sizes : s.seen.length = s.acc.length
  zero : ∀ d, d ∉ s.touched → s.acc.getD d 0 = 0
  seen : ∀ d, s.seen.getD d false = true ↔ d ∈ s.touched

/-- The same contents, in arrays at least as long. -/
structure Extends (a b : Scratch) : Prop where
  sizesA : a.seen.length = a.acc.length
  sizesB : b.seen.length = b.acc.length
  longer : b.acc.length ≤ a.acc.length
  acc : ∀ d, a.acc.getD d 0 = b.acc.getD d 0
  seen : ∀ d, a.seen.getD d false = b.seen.getD d false
  touched : a.touched = b.touched

theorem clean_fresh : fresh.Clean := ⟨rfl, fun _ => rfl, fun _ => rfl⟩

theorem getD_set {α : Type} (xs : List α) (i j : Nat) (x z : α) :
    (xs.set i x).getD j z = if i = j ∧ i < xs.length then x else xs.getD j z := by
  simp only [List.getD_eq_getElem?_getD, List.getElem?_set]
  by_cases same : i = j
  · subst same
    by_cases inside : i < xs.length
    · simp [inside]
    · simp [inside]
  · simp [same]

/-- Setting an element to the default needs no bounds. -/
theorem getD_set_default {α : Type} (xs : List α) (i j : Nat) (z : α) :
    (xs.set i z).getD j z = if i = j then z else xs.getD j z := by
  rw [getD_set]
  by_cases same : i = j
  · subst same
    by_cases inside : i < xs.length <;> simp [List.getD_eq_getElem?_getD, inside]
  · rw [if_neg fun both => same both.1, if_neg same]

theorem add_eq {s : Scratch} (sizes : s.seen.length = s.acc.length) (d : Nat) (c : ℚ) :
    s.add d c = if d < s.acc.length then
      some (if s.seen.getD d false then { s with acc := s.acc.set d (s.acc.getD d 0 + c) }
        else ⟨s.acc.set d (s.acc.getD d 0 + c), s.seen.set d true, s.touched ++ [d]⟩)
      else none := by
  by_cases inside : d < s.acc.length
  · have seen := List.getElem?_eq_getElem (sizes ▸ inside : d < s.seen.length)
    have acc := List.getElem?_eq_getElem inside
    rw [add, if_pos inside, List.getD_eq_getElem?_getD, List.getD_eq_getElem?_getD, seen, acc]
    cases s.seen[d] <;> rfl
  · have seen : s.seen[d]? = none := List.getElem?_eq_none (by omega)
    rw [add, if_neg inside, seen]

theorem prepare_clean {s : Scratch} (clean : s.Clean) (n : Nat) : (s.prepare n).Clean := by
  unfold prepare
  split
  · refine ⟨by simp, fun d => ?_, fun d => ?_⟩
    · by_cases inside : d < n <;> simp [List.getD_eq_getElem?_getD, inside]
    · by_cases inside : d < n <;> simp [List.getD_eq_getElem?_getD, inside]
  · exact ⟨clean.sizes, clean.zero, clean.unseen⟩

theorem prepare_tracked {s : Scratch} (clean : s.Clean) (n : Nat) : (s.prepare n).Tracked := by
  have kept := prepare_clean clean n
  have touched : (s.prepare n).touched = [] := by
    unfold prepare
    split <;> rfl
  refine ⟨kept.sizes, fun d _ => kept.zero d, fun d => ?_⟩
  rw [kept.unseen d, touched]
  simp

theorem prepare_extends {s : Scratch} (clean : s.Clean) (n : Nat) :
    (s.prepare n).Extends (fresh.prepare n) := by
  have kept := prepare_clean clean n
  have base := prepare_clean clean_fresh n
  refine ⟨kept.sizes, base.sizes, ?_, fun d => (kept.zero d).trans (base.zero d).symm,
    fun d => (kept.unseen d).trans (base.unseen d).symm, ?_⟩
  · unfold prepare
    split <;> split <;> simp [fresh] at *
    all_goals omega
  · unfold prepare
    split <;> split <;> rfl

/-! ### Accumulating -/

theorem Tracked.add {s t : Scratch} {d : Nat} {c : ℚ} (tracked : s.Tracked)
    (added : s.add d c = some t) : t.Tracked := by
  rw [add_eq tracked.sizes] at added
  split at added
  · rename_i inside
    cases added
    split
    · rename_i old
      have known := (tracked.seen d).mp old
      refine ⟨by simpa using tracked.sizes, fun e away => ?_, tracked.seen⟩
      have other : d ≠ e := fun same => away (same ▸ known)
      rw [getD_set, if_neg fun both => other both.1]
      exact tracked.zero e away
    · refine ⟨by simpa using tracked.sizes, fun e away => ?_, fun e => ?_⟩
      · rw [List.mem_append, List.mem_singleton, not_or] at away
        rw [getD_set, if_neg fun same => away.2 same.1.symm]
        exact tracked.zero e away.1
      · rw [getD_set, List.mem_append, List.mem_singleton]
        by_cases same : d = e
        · simp [same, same ▸ inside, tracked.sizes]
        · rw [if_neg fun both => same both.1, tracked.seen e]
          simp [Ne.symm same]
  · cases added

theorem Extends.add {a b b' : Scratch} {d : Nat} {c : ℚ} (ext : a.Extends b)
    (added : b.add d c = some b') : ∃ a', a.add d c = some a' ∧ a'.Extends b' := by
  rw [add_eq ext.sizesB] at added
  rw [add_eq ext.sizesA]
  split at added
  · rename_i inside
    have insideA : d < a.acc.length := lt_of_lt_of_le inside ext.longer
    cases added
    rw [if_pos insideA, ext.seen d, ext.acc d]
    refine ⟨_, rfl, ?_⟩
    have acc : ∀ e, (a.acc.set d (b.acc.getD d 0 + c)).getD e 0 =
        (b.acc.set d (b.acc.getD d 0 + c)).getD e 0 := by
      intro e
      rw [getD_set, getD_set, ext.acc e]
      simp [inside, insideA]
    split
    · exact ⟨by simpa using ext.sizesA, by simpa using ext.sizesB, by simpa using ext.longer, acc,
        ext.seen, ext.touched⟩
    · refine ⟨by simpa using ext.sizesA, by simpa using ext.sizesB, by simpa using ext.longer, acc,
        fun e => ?_, by rw [ext.touched]⟩
      rw [getD_set, getD_set, ext.seen e, ext.sizesA, ext.sizesB]
      simp [inside, insideA]
  · cases added

theorem Tracked.addAll {ps : List (Nat × ℚ)} {s t : Scratch} (tracked : s.Tracked)
    (added : s.addAll ps = some t) : t.Tracked := by
  induction ps generalizing s with
  | nil =>
      cases added
      exact tracked
  | cons p rest ih =>
      rw [Scratch.addAll, List.foldlM_cons] at added
      obtain ⟨m, first, later⟩ := Option.bind_eq_some_iff.mp added
      exact ih (tracked.add first) later

theorem Extends.addAll {ps : List (Nat × ℚ)} {a b b' : Scratch} (ext : a.Extends b)
    (added : b.addAll ps = some b') : ∃ a', a.addAll ps = some a' ∧ a'.Extends b' := by
  induction ps generalizing a b with
  | nil =>
      cases added
      exact ⟨a, rfl, ext⟩
  | cons p rest ih =>
      rw [Scratch.addAll, List.foldlM_cons] at added
      obtain ⟨m, first, later⟩ := Option.bind_eq_some_iff.mp added
      obtain ⟨a₁, addedA, ext₁⟩ := ext.add first
      obtain ⟨a₂, laterA, ext₂⟩ := ih ext₁ later
      refine ⟨a₂, ?_, ext₂⟩
      rw [Scratch.addAll, List.foldlM_cons]
      exact Option.bind_eq_some_iff.mpr ⟨a₁, addedA, laterA⟩

/-! ### Draining -/

/-- One turn of the final loop. -/
def drainStep (p : TopK × Scratch) (d : Nat) : TopK × Scratch :=
  ((p.1.push d (p.2.acc.getD d 0)).2,
    { p.2 with acc := p.2.acc.set d 0, seen := p.2.seen.set d false })

theorem drain_eq (s : Scratch) (top : TopK) : s.drain top = s.touched.foldl drainStep (top, s) := rfl

theorem drain_clean {s : Scratch} (tracked : s.Tracked) (top : TopK) : (s.drain top).2.Clean := by
  -- what is still written is among the documents still to come
  have general : ∀ (ts : List Nat) (top : TopK) (s : Scratch), s.seen.length = s.acc.length →
      (∀ d, d ∉ ts → s.acc.getD d 0 = 0) → (∀ d, d ∉ ts → s.seen.getD d false = false) →
      (ts.foldl drainStep (top, s)).2.Clean := by
    intro ts
    induction ts with
    | nil =>
        intro top s sizes zero unseen
        exact ⟨sizes, fun d => zero d List.not_mem_nil, fun d => unseen d List.not_mem_nil⟩
    | cons t rest ih =>
        intro top s sizes zero unseen
        refine ih _ _ (by simpa [drainStep] using sizes) (fun d away => ?_) (fun d away => ?_)
        · rw [getD_set_default]
          split
          · rfl
          · rename_i other
            exact zero d (by simp [away, Ne.symm other])
        · rw [getD_set_default]
          split
          · rfl
          · rename_i other
            exact unseen d (by simp [away, Ne.symm other])
  refine general s.touched top s tracked.sizes tracked.zero fun d away => ?_
  rw [← Bool.not_eq_true, tracked.seen d]
  exact away

theorem Extends.drain {a b : Scratch} (ext : a.Extends b) (top : TopK) :
    (a.drain top).1 = (b.drain top).1 := by
  have general : ∀ (ts : List Nat) (top : TopK) (a b : Scratch), a.Extends b → 
      (ts.foldl drainStep (top, a)).1 = (ts.foldl drainStep (top, b)).1 := by
    intro ts
    induction ts with
    | nil => exact fun _ _ _ _ => rfl
    | cons t rest ih =>
        intro top a b ext
        simp only [List.foldl_cons, drainStep, ext.acc t]
        refine ih _ _ _ ⟨by simpa using ext.sizesA, by simpa using ext.sizesB,
          by simpa using ext.longer, fun d => ?_, fun d => ?_, ext.touched⟩
        · rw [getD_set_default, getD_set_default, ext.acc d]
        · rw [getD_set_default, getD_set_default, ext.seen d]
  rw [drain_eq, drain_eq, ext.touched]
  exact general _ top a b ext

end Scratch

/-! ## One search -/

section Search

variable {haveNeon : Bool} {ix : LexicalIndex} {q : Query} {codec : Codec} {k : Nat} {dl : Deadline}

theorem runExhaustive_eq (haveNeon : Bool) (ix : LexicalIndex) (q : Query) (codec : Codec) (k : Nat)
    (s : Scratch) (dl : Deadline) :
    runExhaustive haveNeon ix q codec k s dl =
      (termScan haveNeon ix codec q.sc q.terms dl).bind fun (ps, exit, _) =>
        ((s.prepare ix.stats.numDocs).addAll ps).map fun s =>
          match exit with
          | .threw what => (.error what, s)
          | exit => (.ok ⟨(s.drain (TopK.empty k)).1.takeSorted, decide (exit = .cut)⟩,
              (s.drain (TopK.empty k)).2) := by
  rw [runExhaustive, termLoop_eq]
  cases termScan haveNeon ix codec q.sc q.terms dl with
  | none => rfl
  | some scanned =>
      obtain ⟨ps, exit, dl'⟩ := scanned
      simp only [Option.bind_some]
      cases (s.prepare ix.stats.numDocs).addAll ps with
      | none => rfl
      | some s' => cases exit <;> rfl

/-- **On clean scratch a search answers what it answers on a fresh thread.** -/
theorem runExhaustive_eq_fresh {s : Scratch} (clean : s.Clean)
    (defined : (runExhaustive haveNeon ix q codec k .fresh dl).isSome) :
    (runExhaustive haveNeon ix q codec k s dl).map Prod.fst =
      (runExhaustive haveNeon ix q codec k .fresh dl).map Prod.fst := by
  rw [runExhaustive_eq] at defined
  rw [runExhaustive_eq, runExhaustive_eq]
  cases scan : termScan haveNeon ix codec q.sc q.terms dl with
  | none => rfl
  | some scanned =>
      obtain ⟨ps, exit, dl'⟩ := scanned
      rw [scan] at defined
      simp only [Option.bind_some] at defined ⊢
      cases added : (Scratch.fresh.prepare ix.stats.numDocs).addAll ps with
      | none =>
          rw [added] at defined
          cases defined
      | some b =>
          obtain ⟨a, addedA, ext⟩ := (Scratch.prepare_extends clean _).addAll added
          have same := ext.drain (TopK.empty k)
          rw [addedA]
          cases exit <;> simp only [Option.map_some, same]

/-- A search leaves clean scratch, unless it throws after it has added a posting. -/
theorem runExhaustive_clean {s t : Scratch} {result : Except String LexicalResult}
    (clean : s.Clean) (ran : runExhaustive haveNeon ix q codec k s dl = some (result, t))
    (early : ∀ ps what dl', termScan haveNeon ix codec q.sc q.terms dl = some (ps, .threw what, dl') →
      ps = []) : t.Clean := by
  rw [runExhaustive_eq] at ran
  obtain ⟨⟨ps, exit, dl'⟩, scanned, ran⟩ := Option.bind_eq_some_iff.mp ran
  obtain ⟨s', added, eq⟩ := Option.map_eq_some_iff.mp ran
  have tracked := (Scratch.prepare_tracked clean _).addAll added
  cases exit with
  | done =>
      cases eq
      exact Scratch.drain_clean tracked _
  | cut =>
      cases eq
      exact Scratch.drain_clean tracked _
  | threw what =>
      cases eq
      rw [early ps what dl' scanned] at added
      cases added
      exact Scratch.prepare_clean clean _

end Search

/-! ## Many searches on one thread -/

/-- The thread: a label is the next call. -/
def searchThread : System Scratch Search where
  start := .fresh
  step s c := (c.run s).map Prod.snd

/-- What the call reads of its index before it ends, and how it ends. -/
def Search.reads (c : Search) : Option (List (Nat × ℚ) × Exit) :=
  match c.ix.query c.P c.opt c.rawTerms with
  | .error _ => none
  | .ok q =>
      if q.terms = [] ∨ c.opt.k = 0 then some ([], .done)
      else (termScan c.P.haveNeon c.ix (c.ix.codecFor c.opt.codec) q.sc q.terms c.deadline).map
        fun (ps, exit, _) => (ps, exit)

/-- The call ends with the exception of `decode_block` after it has read a posting. -/
def Search.ThrowsLate (c : Search) : Prop :=
  ∃ ps what, c.reads = some (ps, .threw what) ∧ ps ≠ []

/-- Every call that stays inside its arrays on a fresh thread ends as it ends there. -/
def SearchesFresh (s : Scratch) : Prop :=
  ∀ c : Search, (c.run .fresh).isSome → (c.run s).map Prod.fst = (c.run .fresh).map Prod.fst

theorem searchesFresh_of_clean {s : Scratch} (clean : s.Clean) : SearchesFresh s := by
  intro c defined
  unfold Search.run at defined ⊢
  split
  · rfl
  · rename_i q asked
    rw [asked] at defined
    simp only at defined
    split
    · rfl
    · rename_i runs
      rw [if_neg runs] at defined
      exact runExhaustive_eq_fresh clean defined

theorem clean_of_step {s t : Scratch} {c : Search} (clean : s.Clean) (early : ¬ c.ThrowsLate)
    (stepped : searchThread.step s c = some t) : t.Clean := by
  obtain ⟨⟨result, t'⟩, ran, eq⟩ := Option.map_eq_some_iff.mp stepped
  cases eq
  unfold Search.run at ran
  split at ran
  · cases ran
  · rename_i q asked
    split at ran
    · cases ran
      exact clean
    · rename_i runs
      refine runExhaustive_clean clean ran fun ps what dl' scanned => ?_
      by_contra left
      refine early ⟨ps, what, ?_, left⟩
      simp only [Search.reads, asked, if_neg runs, scanned, Option.map_some]

/-- **Scratch never leaks between searches** of a run none of whose searches throws after it has
added a posting: at the start of every call `acc` is all zero and `seen` all false, and every call
ends as it would on a fresh thread. -/
theorem exhaustive_never_leaks {trace : List Search} {s : Scratch} (run : searchThread.Run trace s)
    (early : searchThread.StepsMeet (fun _ c => ¬ c.ThrowsLate) .fresh trace) :
    s.Clean ∧ SearchesFresh s := by
  have clean : s.Clean :=
    searchThread.run_induction_of_stepsMeet Scratch.clean_fresh
      (fun _ _ _ clean early stepped => clean_of_step clean early stepped) run early
  exact ⟨clean, searchesFresh_of_clean clean⟩

/-! ## A corrupt block -/

/-- An index of 128 documents: "a" is in document 0, "b" in all of them, and the header of the
one block of "b" is corrupt. -/
def corruptIndex : LexicalIndex where
  stats := ⟨128, 128, 128, 2, 129, 0⟩
  avgdl := 1
  buildK1 := 1
  buildB := 0
  idfN := 128
  idfSumDl := 128
  globalDf := []
  docids := []
  doclen := List.replicate 128 1
  norms := List.replicate 128 1
  termStrings := [0x61, 0x62]
  terms := [⟨0, 1, 1, 1, fun _ => 0, 0, .zero⟩, ⟨1, 1, 128, 128, fun _ => 2, 0, .zero⟩]
  blocks := []
  -- "a": gap 1 and frequency 1, as varints of gap - 1 and frequency - 1
  postingsOf := fun
    | .bp128 => some [0, 0, 33, 0]
    | .vbyte => none

/-- A search of the corrupt index, on a platform whose statistics are all 1. -/
def corruptSearch (rawTerms : List Bytes) : Search where
  P := ⟨false, fun _ _ => 1, fun _ _ => 1⟩
  ix := corruptIndex
  rawTerms := rawTerms
  opt := ⟨10, .exhaustive, .lucene, .bp128, 1, 0⟩
  deadline := .unlimited

/-- The scratch after a search for "a". -/
def drainedScratch : Scratch := ⟨List.replicate 128 0, List.replicate 128 false, [0]⟩

/-- A search for "a" reads one posting and takes it back. -/
theorem exhaustive_never_leaks_once : drainedScratch.Clean ∧ SearchesFresh drainedScratch := by
  have ran : searchThread.Run [corruptSearch [[0x61]]] drainedScratch := by
    change ((corruptSearch [[0x61]]).run .fresh).map Prod.snd >>= some = some drainedScratch
    decide +kernel
  refine exhaustive_never_leaks ran ⟨?_, fun _ _ => trivial⟩
  rintro ⟨ps, what, reads, -⟩
  have ends : (corruptSearch [[0x61]]).reads = some ([(0, 1 / 2)], .done) := by decide +kernel
  rw [ends] at reads
  cases reads

/-- The scratch after a search for both terms: the exception of "b" leaves what "a" added. -/
def leakedScratch : Scratch :=
  ⟨(List.replicate 128 0).set 0 (1 / 2), (List.replicate 128 false).set 0 true, [0]⟩

/-- **An exception after a block leaves its scores behind.**  After a search of "a" and "b" that
throws at the block of "b", a search for "a" finds nothing. -/
theorem exhaustive_leaks :
    ¬ ∀ (trace : List Search) (s : Scratch), searchThread.Run trace s → SearchesFresh s := by
  intro always
  have threw : searchThread.Run [corruptSearch [[0x61], [0x62]]] leakedScratch := by
    change ((corruptSearch [[0x61], [0x62]]).run .fresh).map Prod.snd >>= some = some leakedScratch
    decide +kernel
  have served := always _ _ threw (corruptSearch [[0x61]]) (by decide +kernel)
  revert served
  decide +kernel

end HybridSearch.Engine
