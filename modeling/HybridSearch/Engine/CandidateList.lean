/-
# Engine.CandidateList -- the search list of greedy and beam search (containers.hpp)

The best `capacity` candidates seen, sorted by (distance, id), with a cursor at the
closest one that is not expanded.  An insertion below the cursor moves it back.

`Ok` is what the operations keep: the list is sorted and within its capacity,
everything before the cursor is expanded and the entry at the cursor is not.
`insert_spec` and `pop_spec` say what the operations do to the entries.
-/
import HybridSearch.Theory.BinarySearch
import Mathlib.Algebra.Order.Ring.Unbundled.Rat
import Mathlib.Data.List.GetD
import Mathlib.Data.List.Nodup
import Mathlib.Data.List.TakeWhile
import Mathlib.Tactic.Linarith

namespace HybridSearch.Engine

open HybridSearch.Theory

set_option autoImplicit false

structure Neighbor where
  id : Nat
  dist : ℚ
  expanded : Bool
  deriving DecidableEq, Repr

def neighborLess (a b : Neighbor) : Bool := decide (a.dist < b.dist ∨ a.dist = b.dist ∧ a.id < b.id)

structure CandidateList where
  v : List Neighbor
  cap : Nat
  cursor : Nat
  deriving DecidableEq, Repr

namespace CandidateList

/-- `reset`. -/
def reset (capacity : Nat) : CandidateList := ⟨[], capacity, 0⟩

/-- `v_.back()`, which no candidate is less than when there is none. -/
def lessThanBack (l : CandidateList) (c : Neighbor) : Bool :=
  match l.v.getLast? with
  | none => false
  | some back => neighborLess c back

/-- Where `lower_bound` puts a candidate. -/
def position (l : CandidateList) (c : Neighbor) : Nat :=
  BinarySearch.lowerBound (fun i => neighborLess (l.v.getD i c) c) l.v.length 0 l.v.length

/-- Whether the candidate made the list, and the list. -/
def insert (l : CandidateList) (id : Nat) (dist : ℚ) : Bool × CandidateList :=
  let c : Neighbor := ⟨id, dist, false⟩
  if l.cap ≤ l.v.length ∧ ¬ l.lessThanBack c then (false, l)
  else
    let pos := l.position c
    let v := l.v.take pos ++ c :: l.v.drop pos
    let v := if l.cap < v.length then v.dropLast else v
    (true, { l with v := v, cursor := if pos < l.cursor then pos else l.cursor })

def hasUnexpanded (l : CandidateList) : Bool := decide (l.cursor < l.v.length)

/-- `advance`: past the expanded entries. -/
def advance (v : List Neighbor) (cursor : Nat) : Nat :=
  cursor + ((v.drop cursor).takeWhile Neighbor.expanded).length

/-- The closest unexpanded entry, marked expanded; `none` when there is no such entry. -/
def popClosestUnexpanded (l : CandidateList) : Option (Neighbor × CandidateList) :=
  match l.v[l.cursor]? with
  | none => none
  | some n =>
      let n := { n with expanded := true }
      let v := l.v.set l.cursor n
      some (n, { l with v := v, cursor := advance v l.cursor })

/-- Pop while there is something to pop, at most `w` times. -/
def popFrontier : Nat → CandidateList → List Nat × CandidateList
  | 0, l => ([], l)
  | w + 1, l =>
      match l.popClosestUnexpanded with
      | none => ([], l)
      | some (n, l) => (n.id :: (popFrontier w l).1, (popFrontier w l).2)

/-! ## The order -/

theorem neighborLess_iff {a b : Neighbor} :
    neighborLess a b = true ↔ a.dist < b.dist ∨ a.dist = b.dist ∧ a.id < b.id := decide_eq_true_iff

theorem neighborLess_trans {a b c : Neighbor} (first : neighborLess a b = true)
    (second : neighborLess b c = true) : neighborLess a c = true := by
  rw [neighborLess_iff] at *
  rcases first with lt | ⟨same, less⟩
  · rcases second with lt' | ⟨same', _⟩
    · exact .inl (lt.trans lt')
    · exact .inl (same' ▸ lt)
  · rcases second with lt' | ⟨same', less'⟩
    · exact .inl (same ▸ lt')
    · exact .inr ⟨same.trans same', less.trans less'⟩

/-- Entries with different ids are in one order or the other. -/
theorem neighborLess_of_not {a b : Neighbor} (differ : a.id ≠ b.id) (not_less : neighborLess a b = false) :
    neighborLess b a = true := by
  rw [neighborLess, decide_eq_false_iff_not, not_or, not_and, not_lt] at not_less
  rw [neighborLess_iff]
  rcases lt_or_eq_of_le not_less.1 with lt | same
  · exact .inl lt
  · exact .inr ⟨same, by have := not_less.2 same.symm; omega⟩

/-! ## What the operations keep -/

structure Ok (l : CandidateList) : Prop where
  sorted : l.v.Pairwise fun a b => neighborLess a b = true
  short : l.v.length ≤ l.cap
  before : ∀ i < l.cursor, ∀ e, l.v[i]? = some e → e.expanded = true
  here : ∀ e, l.v[l.cursor]? = some e → e.expanded = false

theorem ok_reset (capacity : Nat) : (reset capacity).Ok where
  sorted := List.Pairwise.nil
  short := Nat.zero_le _
  before _ _ _ entry := by cases entry
  here _ entry := by cases entry

variable {l : CandidateList}

namespace Ok

/-- With nothing left to expand, everything is expanded. -/
theorem all_expanded (ok : l.Ok) (finished : l.hasUnexpanded = false) : ∀ e ∈ l.v, e.expanded = true := by
  intro e mem
  obtain ⟨i, inside, rfl⟩ := List.mem_iff_getElem.mp mem
  have past := of_decide_eq_false finished
  exact ok.before i (by omega) _ (List.getElem?_eq_getElem inside)

/-- The lower bound splits the list at the candidate. -/
theorem position_spec (ok : l.Ok) (c : Neighbor) :
    l.position c ≤ l.v.length ∧
      (∀ e ∈ l.v.take (l.position c), neighborLess e c = true) ∧
      ∀ e ∈ l.v.drop (l.position c), neighborLess e c = false := by
  obtain ⟨_, bound, before, after⟩ := @BinarySearch.lowerBound_spec
    (fun i => neighborLess (l.v.getD i c) c) l.v.length 0 l.v.length (Nat.zero_le _) le_rfl (by
      intro i j _ lt j_in less
      rw [List.getD_eq_getElem _ _ j_in] at less
      rw [List.getD_eq_getElem _ _ (lt.trans j_in)]
      exact neighborLess_trans (List.pairwise_iff_getElem.mp ok.sorted i j (lt.trans j_in) j_in lt) less)
  rw [position]
  generalize BinarySearch.lowerBound (fun i => neighborLess (l.v.getD i c) c) l.v.length 0 l.v.length =
    pos at *
  refine ⟨bound, ?_, ?_⟩
  · intro e mem
    obtain ⟨i, inside, rfl⟩ := List.mem_iff_getElem.mp mem
    rw [List.length_take] at inside
    have := before i (Nat.zero_le i) (by omega)
    rw [List.getD_eq_getElem _ _ (by omega)] at this
    rwa [List.getElem_take]
  · intro e mem
    obtain ⟨i, inside, rfl⟩ := List.mem_iff_getElem.mp mem
    rw [List.length_drop] at inside
    have := after (pos + i) (Nat.le_add_right ..) (by omega)
    rw [List.getD_eq_getElem _ _ (by omega)] at this
    rwa [List.getElem_drop]

end Ok

theorem getElem?_splice {v : List Neighbor} {pos : Nat} (bound : pos ≤ v.length) (c : Neighbor) (i : Nat) :
    (v.take pos ++ c :: v.drop pos)[i]? =
      if i < pos then v[i]? else if i = pos then some c else v[i - 1]? := by
  have front : (v.take pos).length = pos := List.length_take_of_le bound
  rcases Nat.lt_trichotomy i pos with low | rfl | high
  · rw [if_pos low, List.getElem?_append_left (by omega), List.getElem?_take_of_lt low]
  · rw [if_neg (lt_irrefl _), if_pos rfl, List.getElem?_append_right front.le, front, Nat.sub_self]
    rfl
  · rw [if_neg (by omega), if_neg (by omega), List.getElem?_append_right (by omega), front]
    obtain ⟨d, rfl⟩ := Nat.exists_eq_add_of_lt high
    have step : pos + d + 1 - pos = d + 1 := by omega
    rw [step, List.getElem?_cons_succ, List.getElem?_drop]
    rfl

theorem getElem?_of_dropLast {v : List Neighbor} {i : Nat} {e : Neighbor}
    (found : v.dropLast[i]? = some e) : v[i]? = some e := by
  obtain ⟨inside, entry⟩ := List.getElem?_eq_some_iff.mp found
  rw [List.getElem_dropLast] at entry
  rw [List.length_dropLast] at inside
  exact List.getElem?_eq_some_iff.mpr ⟨by omega, entry⟩

/-- The list with a candidate spliced in at its position, before anything is dropped. -/
structure Spliced (l : CandidateList) (c : Neighbor) (v : List Neighbor) (cursor : Nat) : Prop where
  perm : v.Perm (c :: l.v)
  sorted : v.Pairwise fun a b => neighborLess a b = true
  before : ∀ i < cursor, ∀ e, v[i]? = some e → e.expanded = true
  here : ∀ e, v[cursor]? = some e → e.expanded = false

theorem Ok.splice (ok : l.Ok) {c : Neighbor} (new : ∀ e ∈ l.v, e.id ≠ c.id) (fresh : c.expanded = false) :
    Spliced l c (l.v.take (l.position c) ++ c :: l.v.drop (l.position c))
      (if l.position c < l.cursor then l.position c else l.cursor) := by
  obtain ⟨bound, below, above⟩ := ok.position_spec c
  generalize l.position c = pos at *
  have lookup := getElem?_splice bound c
  constructor
  · calc (l.v.take pos ++ c :: l.v.drop pos).Perm (c :: (l.v.take pos ++ l.v.drop pos)) :=
          List.perm_middle
      _ = c :: l.v := by rw [List.take_append_drop]
  · have whole := ok.sorted
    rw [← List.take_append_drop pos l.v, List.pairwise_append] at whole
    refine List.pairwise_append.mpr ⟨whole.1, List.pairwise_cons.mpr ⟨?_, whole.2.1⟩, ?_⟩
    · intro e mem
      exact neighborLess_of_not (new e (List.mem_of_mem_drop mem)) (above e mem)
    · intro e mem e' mem'
      rcases List.mem_cons.mp mem' with rfl | later
      · exact below e mem
      · exact whole.2.2 e mem e' later
  · intro i less e entry
    have low : i < pos ∧ i < l.cursor := by
      split_ifs at less <;> omega
    rw [lookup, if_pos low.1] at entry
    exact ok.before i low.2 e entry
  · intro e entry
    rw [lookup] at entry
    by_cases back : pos < l.cursor
    · rw [if_pos back, if_neg (lt_irrefl _), if_pos rfl] at entry
      rwa [← Option.some.inj entry]
    · rw [if_neg back] at entry
      rcases Nat.lt_or_eq_of_le (not_lt.mp back) with less | same
      · rw [if_pos less] at entry
        exact ok.here e entry
      · rw [if_neg (by omega), if_pos same] at entry
        rwa [← Option.some.inj entry]

/-- What an insertion does to the entries: the new one joins, and one may be lost to the capacity. -/
structure Inserted (l : CandidateList) (c : Neighbor) (l' : CandidateList) : Prop where
  ok : l'.Ok
  cap : l'.cap = l.cap
  entries : ∃ lost, (lost ++ l'.v).Perm (c :: l.v) ∧ (lost = [] ∨ l'.v.length = l.cap)

/-- **An insertion keeps the list in order**, and loses an entry only when the list is full. -/
theorem insert_spec (ok : l.Ok) {id : Nat} (dist : ℚ) (new : ∀ e ∈ l.v, e.id ≠ id) :
    Inserted l ⟨id, dist, false⟩ (l.insert id dist).2 := by
  have spliced := @Ok.splice l ok ⟨id, dist, false⟩ new rfl
  rw [insert]
  generalize (⟨id, dist, false⟩ : Neighbor) = c at *
  dsimp only
  by_cases refused : l.cap ≤ l.v.length ∧ ¬ l.lessThanBack c
  · rw [if_pos refused]
    exact ⟨ok, rfl, [c], List.Perm.refl _, .inr (le_antisymm ok.short refused.1)⟩
  · rw [if_neg refused]
    generalize l.v.take (l.position c) ++ c :: l.v.drop (l.position c) = v at *
    have length : v.length = l.v.length + 1 := spliced.perm.length_eq
    have short := ok.short
    dsimp only
    by_cases exceeds : l.cap < v.length
    · rw [if_pos exceeds]
      refine ⟨⟨spliced.sorted.sublist (List.dropLast_sublist v), ?_, ?_, ?_⟩, rfl, ?_⟩
      · change v.dropLast.length ≤ l.cap
        rw [List.length_dropLast]
        omega
      · exact fun i less e entry_eq => spliced.before i less e (getElem?_of_dropLast entry_eq)
      · exact fun e entry_eq => spliced.here e (getElem?_of_dropLast entry_eq)
      · have nonempty : v ≠ [] := fun empty => by rw [empty] at length; cases length
        refine ⟨[v.getLast nonempty], ?_, .inr ?_⟩
        · refine List.Perm.trans ?_ spliced.perm
          calc ([v.getLast nonempty] ++ v.dropLast).Perm (v.dropLast ++ [v.getLast nonempty]) :=
                List.perm_append_comm
            _ = v := List.dropLast_append_getLast nonempty
        · change v.dropLast.length = l.cap
          rw [List.length_dropLast]
          omega
    · rw [if_neg exceeds]
      exact ⟨⟨spliced.sorted, not_lt.mp exceeds, spliced.before, spliced.here⟩, rfl, [], spliced.perm, .inl rfl⟩

/-- **An entry is lost only to better ones**: whatever an insertion leaves out comes after all
that the list holds. -/
theorem insert_lost (ok : l.Ok) {id : Nat} (dist : ℚ) (new : ∀ e ∈ l.v, e.id ≠ id) {x : Neighbor}
    (offered : x = ⟨id, dist, false⟩ ∨ x ∈ l.v) (lost : x ∉ (l.insert id dist).2.v) :
    ∀ e ∈ (l.insert id dist).2.v, neighborLess e x = true := by
  have spliced := @Ok.splice l ok ⟨id, dist, false⟩ new rfl
  rw [insert] at lost ⊢
  generalize is : (⟨id, dist, false⟩ : Neighbor) = c at *
  dsimp only at lost ⊢
  by_cases refused : l.cap ≤ l.v.length ∧ ¬ l.lessThanBack c
  · rw [if_pos refused] at lost ⊢
    have same : x = c := offered.resolve_right lost
    intro e mem
    -- the last entry is before the candidate, and the others are before the last
    obtain ⟨back, last⟩ : ∃ back, l.v.getLast? = some back := by
      cases found : l.v.getLast? with
      | some back => exact ⟨back, rfl⟩
      | none =>
          rw [List.getLast?_eq_none_iff.mp found] at mem
          cases mem
    have back_mem := List.mem_of_getLast? last
    have first : neighborLess back c = true := by
      have notLess := refused.2
      rw [lessThanBack, last, Bool.not_eq_true] at notLess
      refine neighborLess_of_not ?_ notLess
      rw [← is]
      exact fun same => new back back_mem same.symm
    rw [same]
    have sorted := ok.sorted
    obtain ⟨front, whole⟩ := List.getLast?_eq_some_iff.mp last
    rw [whole] at mem sorted
    rcases List.mem_append.mp mem with before | only
    · exact neighborLess_trans ((List.pairwise_append.mp sorted).2.2 e before back
        (List.mem_singleton_self back)) first
    · rw [List.mem_singleton.mp only]
      exact first
  · rw [if_neg refused] at lost ⊢
    generalize l.v.take (l.position c) ++ c :: l.v.drop (l.position c) = v at *
    have mem_v : x ∈ v := spliced.perm.mem_iff.mpr (List.mem_cons.mpr offered)
    dsimp only at lost ⊢
    by_cases exceeds : l.cap < v.length
    · rw [if_pos exceeds] at lost ⊢
      have nonempty : v ≠ [] := List.ne_nil_of_mem mem_v
      have whole := List.dropLast_append_getLast nonempty
      have sorted := spliced.sorted
      rw [← whole] at mem_v sorted
      have last : x = v.getLast nonempty :=
        List.mem_singleton.mp ((List.mem_append.mp mem_v).resolve_left lost)
      intro e mem
      rw [last]
      exact (List.pairwise_append.mp sorted).2.2 e mem _ (List.mem_singleton_self _)
    · rw [if_neg exceeds] at lost
      exact absurd mem_v lost

/-! ## Popping -/

/-- What popping does to the entries: one that was not expanded now is. -/
structure Popped (l : CandidateList) (n : Neighbor) (l' : CandidateList) : Prop where
  ok : l'.Ok
  cap : l'.cap = l.cap
  entries : ∃ front back, l.v = front ++ { n with expanded := false } :: back ∧
    l'.v = front ++ n :: back ∧ n.expanded = true

/-- The cursor advances to the next entry that is not expanded. -/
theorem advance_spec {v : List Neighbor} {cursor : Nat}
    (before : ∀ i < cursor, ∀ e, v[i]? = some e → e.expanded = true) :
    (∀ i < advance v cursor, ∀ e, v[i]? = some e → e.expanded = true) ∧
      ∀ e, v[advance v cursor]? = some e → e.expanded = false := by
  have split (d : Nat) : ((v.drop cursor).takeWhile Neighbor.expanded ++
      (v.drop cursor).dropWhile Neighbor.expanded)[d]? = v[cursor + d]? := by
    rw [List.takeWhile_append_dropWhile, List.getElem?_drop]
  constructor
  · intro i less e entry_eq
    rcases Nat.lt_or_ge i cursor with low | high
    · exact before i low e entry_eq
    · obtain ⟨d, rfl⟩ := Nat.exists_eq_add_of_le high
      rw [advance] at less
      rw [← split d, List.getElem?_append_left (by omega)] at entry_eq
      exact List.mem_takeWhile_imp (List.mem_of_getElem? entry_eq)
  · intro e entry_eq
    rw [advance, ← split, List.getElem?_append_right le_rfl, Nat.sub_self, ← List.head?_eq_getElem?] at entry_eq
    have first := List.head?_dropWhile_not Neighbor.expanded (v.drop cursor)
    rw [entry_eq] at first
    exact first

/-- **Popping marks the closest entry that is not expanded.** -/
theorem pop_spec (ok : l.Ok) {n : Neighbor} {l' : CandidateList}
    (popped : l.popClosestUnexpanded = some (n, l')) : Popped l n l' := by
  rw [popClosestUnexpanded] at popped
  cases entry_eq : l.v[l.cursor]? with
  | none =>
      rw [entry_eq] at popped
      cases popped
  | some e =>
      rw [entry_eq] at popped
      cases popped
      obtain ⟨inside, found⟩ := List.getElem?_eq_some_iff.mp entry_eq
      have fresh := ok.here e entry_eq
      have whole : l.v = l.v.take l.cursor ++ e :: l.v.drop (l.cursor + 1) := by
        rw [← found, ← List.drop_eq_getElem_cons, List.take_append_drop]
      have marked : l.v.set l.cursor { e with expanded := true } =
          l.v.take l.cursor ++ { e with expanded := true } :: l.v.drop (l.cursor + 1) :=
        List.set_eq_take_append_cons_drop.trans (if_pos inside)
      have before : ∀ i < l.cursor, ∀ x, (l.v.set l.cursor { e with expanded := true })[i]? = some x →
          x.expanded = true := by
        intro i less x at_i
        rw [List.getElem?_set_ne (by omega)] at at_i
        exact ok.before i less x at_i
      obtain ⟨passed, stopped⟩ := advance_spec before
      refine ⟨⟨?_, ?_, passed, stopped⟩, rfl, l.v.take l.cursor, l.v.drop (l.cursor + 1), ?_, marked, rfl⟩
      · change (l.v.set l.cursor { e with expanded := true }).Pairwise _
        have sorted := ok.sorted
        rw [whole, List.pairwise_append, List.pairwise_cons] at sorted
        rw [marked, List.pairwise_append, List.pairwise_cons]
        refine ⟨sorted.1, ⟨sorted.2.1.1, sorted.2.1.2⟩, ?_⟩
        intro a a_mem b b_mem
        rcases List.mem_cons.mp b_mem with rfl | later
        · exact sorted.2.2 a a_mem e (List.mem_cons_self ..)
        · exact sorted.2.2 a a_mem b (List.mem_cons_of_mem _ later)
      · change (l.v.set l.cursor _).length ≤ l.cap
        rw [List.length_set]
        exact ok.short
      · have same : ({ e with expanded := false } : Neighbor) = e := by
          rw [← fresh]
        dsimp only
        rw [same]
        exact whole

theorem pop_isSome (unfinished : l.hasUnexpanded = true) :
    ∃ n l', l.popClosestUnexpanded = some (n, l') := by
  have inside := of_decide_eq_true unfinished
  rw [popClosestUnexpanded, List.getElem?_eq_getElem inside]
  exact ⟨_, _, rfl⟩

end CandidateList

end HybridSearch.Engine
