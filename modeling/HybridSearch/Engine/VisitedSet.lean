/-
# Engine.VisitedSet -- the set of visited nodes (containers.hpp, `VisitedSet`)

An open-addressing set of 32-bit node ids.  It grows before it would be more than
half full, and the ids of the old table are inserted again.

`Holds v s` says that `v` stores exactly the ids of `s`.  `insert_holds` is what
a search relies on: `insert` returns whether the id is new, whatever the table
held or how large it had grown before.
-/
import HybridSearch.Engine.Machine
import HybridSearch.Theory.LinearProbe
import Mathlib.Data.Finset.Insert
import Mathlib.Data.Nat.Log
import Mathlib.Tactic.Linarith

namespace HybridSearch.Engine

open HybridSearch.Theory

set_option autoImplicit false

structure VisitedSet where
  slots : Nat → Nat
  /-- `slots_.size()`. -/
  cap : Nat
  mask : Nat
  size : Nat

namespace VisitedSet

/-- `kEmpty`. -/
abbrev kEmpty : Nat := uint32Max

def hash (x : Nat) : Nat :=
  let x := x ^^^ x >>> 16
  let x := u32 (x * 0x7feb352d)
  let x := x ^^^ x >>> 15
  let x := u32 (x * 0x846ca68b)
  x ^^^ x >>> 16

/-- `alloc`. -/
def alloc (log2Cap : Nat) : VisitedSet where
  slots _ := kEmpty
  cap := 2 ^ log2Cap
  mask := u32 (2 ^ log2Cap - 1)
  size := 0

def init : VisitedSet := alloc 12

def clear (v : VisitedSet) : VisitedSet :=
  if v.size = 0 then v else { v with slots := fun _ => kEmpty, size := 0 }

/-- The probe loop of `insert`: whether the id is there, and where the loop ended. -/
def probe (v : VisitedSet) (id : Nat) : Nat → Nat → Except Fault (Bool × Nat)
  | 0, _ => .error .diverged
  | fuel + 1, h =>
      if v.slots h = id then .ok (true, h)
      else if v.slots h = kEmpty then .ok (false, h)
      else probe v id fuel ((h + 1) &&& v.mask)

/-- `insert` without the growth. -/
def place (v : VisitedSet) (id : Nat) : Except Fault (Bool × VisitedSet) := do
  let (found, h) ← v.probe id (v.mask + 1) (hash id &&& v.mask)
  if found then pure (false, v)
  else pure (true, { v with slots := Function.update v.slots h id, size := v.size + 1 })

def crowded (v : VisitedSet) : Bool := decide (v.cap < (v.size + 1) * 2)

/-- One id of the old table.  The new table is never crowded, so `insert` does not grow here. -/
def reinsert (v : VisitedSet) (id : Nat) : Except Fault VisitedSet := do
  if v.crowded then throw .diverged
  let (_, v) ← v.place id
  pure v

def grow (v : VisitedSet) : Except Fault VisitedSet :=
  ((List.range v.cap).map v.slots).foldlM
    (fun fresh id => if id ≠ kEmpty then fresh.reinsert id else pure fresh)
    (alloc (Nat.clog 2 (v.cap * 2)))

def contains (v : VisitedSet) (id : Nat) : Except Fault Bool := do
  let (found, _) ← v.probe id (v.mask + 1) (hash id &&& v.mask)
  pure found

/-- Whether the id was not present, and the set with it. -/
def insert (v : VisitedSet) (id : Nat) : Except Fault (Bool × VisitedSet) := do
  let v ← if v.crowded then v.grow else pure v
  v.place id

/-! ## What the table stores -/

/-- The slots, with `kEmpty` read as free. -/
def free? (v : VisitedSet) (i : Nat) : Option Nat := if v.slots i = kEmpty then none else some (v.slots i)

/-- `v` stores the ids `s`.  A table of more than `2 ^ 32` slots uses only the first `2 ^ 32`. -/
structure Holds (v : VisitedSet) (s : Finset Nat) : Prop where
  power : ∃ k, v.cap = 2 ^ k ∧ 1 ≤ k ∧ v.mask + 1 = 2 ^ min k 32
  size : v.size = s.card
  load : s.card * 2 ≤ v.cap
  real : ∀ id ∈ s, id < kEmpty
  unused : ∀ i, v.mask < i → v.slots i = kEmpty
  table : LinearProbe.Table (v.mask + 1) v.free? (fun id => hash id % (v.mask + 1)) s

namespace Holds

variable {v : VisitedSet} {s : Finset Nat}

theorem card_lt (holds : v.Holds s) : s.card < 2 ^ 32 := by
  have inside : s ⊆ Finset.range kEmpty := fun id mem => Finset.mem_range.mpr (holds.real id mem)
  have := Finset.card_le_card inside
  rw [Finset.card_range] at this
  exact this.trans_lt (by decide)

/-- There is always a free slot. -/
theorem card_lt_slots (holds : v.Holds s) : s.card < v.mask + 1 := by
  obtain ⟨k, cap, large, slots⟩ := holds.power
  have load := holds.load
  rw [slots]
  rcases Nat.le_total k 32 with small | big
  · rw [Nat.min_eq_left small]
    rw [cap] at load
    have := Nat.two_pow_pos k
    omega
  · rw [Nat.min_eq_right big]
    exact holds.card_lt

theorem and_mask (holds : v.Holds s) (x : Nat) : x &&& v.mask = x % (v.mask + 1) := by
  obtain ⟨k, _, _, slots⟩ := holds.power
  have mask : v.mask = 2 ^ min k 32 - 1 := by omega
  rw [slots, mask]
  exact Nat.and_two_pow_sub_one_eq_mod x _

theorem probe_eq_walk (holds : v.Holds s) {id : Nat} (real : id < kEmpty) (fuel i : Nat) :
    v.probe id fuel i =
      match LinearProbe.walk (v.mask + 1) v.free? (fun b => decide (b = id)) fuel i with
      | none => .error .diverged
      | some j => .ok (decide (v.slots j = id), j) := by
  induction fuel generalizing i with
  | zero => rfl
  | succ fuel ih =>
      rw [probe, LinearProbe.walk, free?]
      by_cases empty : v.slots i = kEmpty
      · have differ : ¬ v.slots i = id := fun same => by omega
        rw [if_pos empty, if_pos empty, if_neg differ]
        exact congrArg Except.ok (Prod.ext (decide_eq_false differ).symm rfl)
      · rw [if_neg empty, if_neg empty]
        by_cases same : v.slots i = id
        · rw [if_pos same]
          simp only [same, decide_true, if_true]
        · rw [if_neg same]
          simp only [same, decide_false, Bool.false_eq_true, if_false]
          rw [ih, holds.and_mask]

/-- **`place` stores the id and says whether it is new**, while there is room for it. -/
theorem place_holds (holds : v.Holds s) {id : Nat} (real : id < kEmpty)
    (room : (s.card + 1) * 2 ≤ v.cap) :
    ∃ v', v.place id = .ok (decide (id ∉ s), v') ∧ v'.Holds (Insert.insert id s) ∧ v'.cap = v.cap := by
  obtain ⟨d, less, walked, found, before⟩ := @LinearProbe.Table.lookup Nat (v.mask + 1) v.free?
    (fun id => hash id % (v.mask + 1)) s _ holds.table holds.card_lt_slots id
    (Nat.mod_lt _ (Nat.succ_pos _))
  have probed := holds.probe_eq_walk real (v.mask + 1) (hash id % (v.mask + 1))
  rw [walked] at probed
  generalize j_is : LinearProbe.slot (v.mask + 1) (hash id % (v.mask + 1)) d = j at *
  have inside : j < v.mask + 1 := j_is ▸ LinearProbe.slot_lt (Nat.succ_pos _) _ _
  rw [place, holds.and_mask, probed]
  by_cases stored : id ∈ s
  · rw [if_pos stored, free?] at found
    split_ifs at found with empty
    cases found
    refine ⟨v, ?_, ?_, rfl⟩
    · simp only [decide_true, stored, not_true_eq_false, decide_false]
      rfl
    · rw [Finset.insert_eq_self.mpr stored]
      exact holds
  · rw [if_neg stored, free?] at found
    split_ifs at found with empty
    have differ : ¬ v.slots j = id := fun same => by omega
    refine ⟨{ v with slots := Function.update v.slots j id, size := v.size + 1 }, ?_, ?_, rfl⟩
    · simp only [differ, decide_false, stored, not_false_eq_true, decide_true]
      rfl
    · have filled : free? { v with slots := Function.update v.slots j id, size := v.size + 1 } =
          Function.update v.free? j (some id) := by
        funext i
        change (if Function.update v.slots j id i = kEmpty then none
          else some (Function.update v.slots j id i)) = _
        by_cases here : i = j
        · rw [here, Function.update_self, Function.update_self, if_neg (by omega)]
        · rw [Function.update_of_ne here, Function.update_of_ne here]
          rfl
      constructor
      · exact holds.power
      · rw [Finset.card_insert_of_notMem stored]
        exact congrArg (· + 1) holds.size
      · rw [Finset.card_insert_of_notMem stored]
        exact room
      · intro other mem
        rcases Finset.mem_insert.mp mem with rfl | old
        · exact real
        · exact holds.real other old
      · intro i beyond
        have away : i ≠ j := by
          have : v.mask < i := beyond
          omega
        change Function.update v.slots j id i = kEmpty
        rw [Function.update_of_ne away]
        exact holds.unused i beyond
      · rw [filled]
        have is_free : v.free? j = none := if_pos empty
        rw [← j_is] at is_free ⊢
        exact holds.table.add stored less is_free before

end Holds

/-! ## Growth -/

theorem holds_alloc {k : Nat} (large : 1 ≤ k) : (alloc k).Holds ∅ where
  power := by
    refine ⟨k, rfl, large, ?_⟩
    change u32 (2 ^ k - 1) + 1 = 2 ^ min k 32
    rcases Nat.le_total k 32 with small | big
    · have le : 2 ^ k ≤ 2 ^ 32 := Nat.pow_le_pow_right (by decide) small
      have pos := Nat.two_pow_pos k
      rw [Nat.min_eq_left small, u32, Nat.mod_eq_of_lt (by omega)]
      omega
    · obtain ⟨e, rfl⟩ := Nat.exists_eq_add_of_le big
      have pos := Nat.two_pow_pos e
      rw [Nat.min_eq_right big, pow_add, u32]
      have split : 2 ^ 32 * 2 ^ e - 1 = (2 ^ 32 - 1) + 2 ^ 32 * (2 ^ e - 1) := by
        rw [Nat.mul_sub]
        omega
      rw [split, Nat.add_mul_mod_self_left]
      rfl
  size := rfl
  load := Nat.zero_le _
  real id mem := by cases mem
  unused _ _ := rfl
  table := by
    have nothing : (alloc k).free? = fun _ => none := funext fun _ => if_pos rfl
    rw [nothing]
    exact LinearProbe.Table.empty _ _

theorem holds_init : init.Holds ∅ := holds_alloc (by decide)

theorem Holds.clear {v : VisitedSet} {s : Finset Nat} (holds : v.Holds s) : v.clear.Holds ∅ := by
  rw [VisitedSet.clear]
  split_ifs with empty
  · rw [holds.size, Finset.card_eq_zero] at empty
    exact empty ▸ holds
  · constructor
    · exact holds.power
    · rfl
    · exact Nat.zero_le _
    · intro id mem
      cases mem
    · exact fun _ _ => rfl
    · have nothing : free? { v with slots := fun _ => kEmpty, size := 0 } = fun _ => none :=
        funext fun _ => if_pos rfl
      rw [nothing]
      exact LinearProbe.Table.empty _ _

/-- Inserting a list of ids into a table with room for all of them. -/
theorem foldlM_reinsert {ids : List Nat} {v : VisitedSet} {s : Finset Nat} (holds : v.Holds s)
    (real : ∀ id ∈ ids, id ≠ kEmpty → id < kEmpty)
    (room : ((s ∪ (ids.filter (· ≠ kEmpty)).toFinset).card + 1) * 2 ≤ v.cap) :
    ∃ v', ids.foldlM (fun fresh id => if id ≠ kEmpty then fresh.reinsert id else pure fresh) v =
        .ok v' ∧ v'.Holds (s ∪ (ids.filter (· ≠ kEmpty)).toFinset) ∧ v'.cap = v.cap := by
  induction ids generalizing v s with
  | nil => exact ⟨v, rfl, by simpa using holds, rfl⟩
  | cons id rest ih =>
      rw [List.foldlM_cons]
      by_cases empty : id = kEmpty
      · rw [List.filter_cons_of_neg (by simpa using empty)] at room ⊢
        rw [if_neg (not_not.mpr empty)]
        exact ih holds (fun other mem => real other (List.mem_cons_of_mem _ mem)) room
      · rw [List.filter_cons_of_pos (by simpa using empty), List.toFinset_cons,
          Finset.union_insert, ← Finset.insert_union] at room ⊢
        have few : (s.card + 1) * 2 ≤ v.cap := by
          have le : s.card ≤ (Insert.insert id s ∪ (rest.filter (· ≠ kEmpty)).toFinset).card :=
            Finset.card_le_card ((Finset.subset_insert id s).trans Finset.subset_union_left)
          omega
        have loose : v.crowded = false := decide_eq_false (by rw [holds.size]; omega)
        obtain ⟨v', placed, holds', cap⟩ :=
          holds.place_holds (real id (List.mem_cons_self ..) empty) few
        have step : v.reinsert id = .ok v' := by
          rw [reinsert, loose, placed]
          rfl
        rw [if_pos empty, step]
        obtain ⟨last, run, holds_last, cap_last⟩ :=
          ih holds' (fun other mem => real other (List.mem_cons_of_mem _ mem)) (cap ▸ room)
        exact ⟨last, run, holds_last, cap_last.trans cap⟩

/-- The ids in the slots of a table are the set it holds. -/
theorem Holds.slots_eq {v : VisitedSet} {s : Finset Nat} (holds : v.Holds s) :
    (((List.range v.cap).map v.slots).filter (· ≠ kEmpty)).toFinset = s := by
  obtain ⟨k, cap, _, slots⟩ := holds.power
  have inside : v.mask + 1 ≤ v.cap := by
    rw [slots, cap]
    exact Nat.pow_le_pow_right (by decide) (Nat.min_le_left ..)
  ext id
  rw [List.mem_toFinset, List.mem_filter, List.mem_map, decide_eq_true_eq]
  constructor
  · rintro ⟨⟨i, _, rfl⟩, taken⟩
    have low : i < v.mask + 1 := by
      by_contra beyond
      exact taken (holds.unused i (by omega))
    exact holds.table.known i low _ (if_neg taken)
  · intro stored
    obtain ⟨d, _, slot_eq, _⟩ := holds.table.placed id stored
    rw [free?] at slot_eq
    split_ifs at slot_eq with empty
    have low := @LinearProbe.slot_lt (v.mask + 1) (Nat.succ_pos _) (hash id % (v.mask + 1)) d
    generalize LinearProbe.slot (v.mask + 1) (hash id % (v.mask + 1)) d = i at *
    have same : v.slots i = id := Option.some.inj slot_eq
    exact ⟨⟨i, List.mem_range.mpr (by omega), same⟩, same ▸ empty⟩

/-- **`grow` keeps every id.** -/
theorem Holds.grow {v : VisitedSet} {s : Finset Nat} (holds : v.Holds s) :
    ∃ v', v.grow = .ok v' ∧ v'.Holds s ∧ v'.cap = v.cap * 2 := by
  obtain ⟨k, cap, large, _⟩ := holds.power
  have lg : Nat.clog 2 (v.cap * 2) = k + 1 := by
    rw [cap, ← pow_succ]
    exact Nat.clog_pow 2 (k + 1) (by decide)
  have load := holds.load
  have pos : 2 ≤ v.cap := by
    rw [cap]
    exact Nat.le_self_pow (by omega) 2
  have real : ∀ id ∈ (List.range v.cap).map v.slots, id ≠ kEmpty → id < kEmpty := by
    intro id mem taken
    have stored : id ∈ s := by
      rw [← holds.slots_eq, List.mem_toFinset, List.mem_filter]
      exact ⟨mem, decide_eq_true taken⟩
    exact holds.real id stored
  have room : ((∅ ∪ (((List.range v.cap).map v.slots).filter (· ≠ kEmpty)).toFinset).card + 1) * 2 ≤
      (alloc (k + 1)).cap := by
    rw [Finset.empty_union, holds.slots_eq]
    change (s.card + 1) * 2 ≤ 2 ^ (k + 1)
    rw [pow_succ, ← cap]
    omega
  obtain ⟨v', run, holds', cap'⟩ := foldlM_reinsert (holds_alloc (Nat.le_add_left 1 k)) real room
  rw [Finset.empty_union, holds.slots_eq] at holds'
  refine ⟨v', ?_, holds', ?_⟩
  · rw [VisitedSet.grow, lg]
    exact run
  · rw [cap', cap, ← pow_succ]
    rfl

/-- **`insert` returns whether the id is new, and stores it.** -/
theorem insert_holds {v : VisitedSet} {s : Finset Nat} (holds : v.Holds s) {id : Nat}
    (real : id < kEmpty) :
    ∃ v', v.insert id = .ok (decide (id ∉ s), v') ∧ v'.Holds (Insert.insert id s) := by
  rw [insert]
  by_cases full : v.crowded
  · obtain ⟨grown, run, holds', cap⟩ := holds.grow
    have load := holds.load
    have pos : 2 ≤ v.cap := by
      obtain ⟨k, cap, large, _⟩ := holds.power
      rw [cap]
      exact Nat.le_self_pow (by omega) 2
    obtain ⟨v', placed, holds'', _⟩ := holds'.place_holds real (by omega)
    refine ⟨v', ?_, holds''⟩
    rw [if_pos full, run]
    exact placed
  · have room : (s.card + 1) * 2 ≤ v.cap := by
      rw [crowded, decide_eq_true_eq, holds.size] at full
      omega
    obtain ⟨v', placed, holds', _⟩ := holds.place_holds real room
    refine ⟨v', ?_, holds'⟩
    rw [if_neg full]
    exact placed

/-! ## Sequences of calls -/

theorem Holds.contains {v : VisitedSet} {s : Finset Nat} (holds : v.Holds s) {id : Nat}
    (real : id < kEmpty) : v.contains id = .ok (decide (id ∈ s)) := by
  obtain ⟨d, -, walked, found, -⟩ := @LinearProbe.Table.lookup Nat (v.mask + 1) v.free?
    (fun id => hash id % (v.mask + 1)) s _ holds.table holds.card_lt_slots id
    (Nat.mod_lt _ (Nat.succ_pos _))
  have probed := holds.probe_eq_walk real (v.mask + 1) (hash id % (v.mask + 1))
  rw [walked] at probed
  rw [VisitedSet.contains, holds.and_mask, probed, ok_bind]
  generalize LinearProbe.slot (v.mask + 1) (hash id % (v.mask + 1)) d = j at *
  rw [free?] at found
  by_cases stored : id ∈ s
  · rw [if_pos stored] at found
    split_ifs at found with empty
    rw [decide_eq_true stored, decide_eq_true (Option.some.inj found)]
    rfl
  · rw [if_neg stored] at found
    split_ifs at found with empty
    have differ : ¬v.slots j = id := fun same => by omega
    rw [decide_eq_false stored, decide_eq_false differ]
    rfl

inductive Call
  | insert (id : Nat)
  | contains (id : Nat)
  | clear

/-- The ids a call is about are not the mark of an empty slot. -/
def Call.Real : Call → Prop
  | .insert id => id < kEmpty
  | .contains id => id < kEmpty
  | .clear => True

/-- What a call returns, and the set after it. -/
def call (v : VisitedSet) : Call → Except Fault (Option Bool × VisitedSet)
  | .insert id => do
      let (new, v) ← v.insert id
      pure (some new, v)
  | .contains id => do
      let found ← v.contains id
      pure (some found, v)
  | .clear => pure (none, v.clear)

/-- The same call of a mathematical set. -/
def Call.onSet (s : Finset Nat) : Call → Option Bool × Finset Nat
  | .insert id => (some (decide (id ∉ s)), Insert.insert id s)
  | .contains id => (some (decide (id ∈ s)), s)
  | .clear => (none, ∅)

/-- The answers of a sequence of calls, and the set after it. -/
def calls (v : VisitedSet) : List Call → Except Fault (List (Option Bool) × VisitedSet)
  | [] => pure ([], v)
  | c :: rest => do
      let (answer, v) ← v.call c
      let (answers, v) ← calls v rest
      pure (answer :: answers, v)

def onSet (s : Finset Nat) : List Call → List (Option Bool) × Finset Nat
  | [] => ([], s)
  | c :: rest =>
      let next := c.onSet s
      let last := onSet next.2 rest
      (next.1 :: last.1, last.2)

/-- `v` stores `s`, or is a table of one slot that stores nothing yet. -/
def Stores (v : VisitedSet) (s : Finset Nat) : Prop := v.Holds s ∨ v = alloc 0 ∧ s = ∅

theorem stores_alloc (log2Cap : Nat) : (alloc log2Cap).Stores ∅ := by
  cases log2Cap with
  | zero => exact Or.inr ⟨rfl, rfl⟩
  | succ k => exact Or.inl (holds_alloc (Nat.succ_pos k))

/-- The set, its size, its load and its empty slot. -/
theorem Stores.facts {v : VisitedSet} {s : Finset Nat} (stores : v.Stores s) :
    v.size = s.card ∧ v.size * 2 ≤ v.cap ∧ ∃ i ≤ v.mask, v.slots i = kEmpty := by
  rcases stores with holds | ⟨rfl, rfl⟩
  · refine ⟨holds.size, holds.size ▸ holds.load, ?_⟩
    obtain ⟨i, inside, is_free⟩ := holds.table.free holds.card_lt_slots
    refine ⟨i, Nat.lt_succ_iff.mp inside, ?_⟩
    rw [free?] at is_free
    split_ifs at is_free with empty
    exact empty
  · exact ⟨rfl, Nat.zero_le _, 0, Nat.zero_le _, rfl⟩

/-- **One call** of the table is that call of the set it stores. -/
theorem Stores.call {v : VisitedSet} {s : Finset Nat} (stores : v.Stores s) {c : Call} (real : c.Real) :
    ∃ v', v.call c = .ok ((c.onSet s).1, v') ∧ v'.Stores (c.onSet s).2 := by
  rcases stores with holds | ⟨rfl, rfl⟩
  · cases c with
    | insert id =>
        obtain ⟨v', inserted, holds'⟩ := insert_holds holds real
        refine ⟨v', ?_, Or.inl holds'⟩
        rw [VisitedSet.call, inserted]
        rfl
    | contains id =>
        refine ⟨v, ?_, Or.inl holds⟩
        rw [VisitedSet.call, holds.contains real]
        rfl
    | clear => exact ⟨v.clear, rfl, Or.inl holds.clear⟩
  · cases c with
    | insert id =>
        obtain ⟨v', placed, holds', -⟩ := (holds_alloc (k := 1) le_rfl).place_holds real le_rfl
        have grown : (alloc 0).grow = .ok (alloc 1) := rfl
        refine ⟨v', ?_, Or.inl holds'⟩
        rw [VisitedSet.call, VisitedSet.insert, if_pos (by decide), grown]
        change ((alloc 1).place id >>= _) = _
        rw [placed]
        rfl
    | contains id =>
        refine ⟨alloc 0, ?_, Or.inr ⟨rfl, rfl⟩⟩
        have differ : ¬kEmpty = id := fun same => by
          rw [Call.Real, ← same] at real
          exact lt_irrefl _ real
        have probed : (alloc 0).contains id = .ok false := by
          rw [VisitedSet.contains]
          change ((alloc 0).probe id 1 _ >>= _) = _
          rw [probe]
          change ((if kEmpty = id then _ else _) >>= _) = _
          rw [if_neg differ]
          rfl
        rw [VisitedSet.call, probed]
        rfl
    | clear => exact ⟨alloc 0, rfl, Or.inr ⟨rfl, rfl⟩⟩

/-- **The visited set is a set**: any sequence of calls returns, with the answers of a mathematical
set, and leaves a table that is at most half full. -/
theorem calls_eq_onSet {log2Cap : Nat} {cs : List Call} (real : ∀ c ∈ cs, c.Real) :
    ∃ v, (alloc log2Cap).calls cs = .ok ((onSet ∅ cs).1, v) ∧ v.size = (onSet ∅ cs).2.card ∧
      v.size * 2 ≤ v.cap ∧ (∃ i ≤ v.mask, v.slots i = kEmpty) ∧
      ∀ id < kEmpty, v.contains id = .ok (decide (id ∈ (onSet ∅ cs).2)) := by
  have run {v : VisitedSet} {s : Finset Nat} (stores : v.Stores s) :
      ∃ v', v.calls cs = .ok ((onSet s cs).1, v') ∧ v'.Stores (onSet s cs).2 := by
    induction cs generalizing v s with
    | nil => exact ⟨v, rfl, stores⟩
    | cons c rest ih =>
        obtain ⟨v₁, called, stores₁⟩ := stores.call (real c List.mem_cons_self)
        obtain ⟨v₂, later, stores₂⟩ := ih (fun c mem => real c (List.mem_cons_of_mem _ mem)) stores₁
        refine ⟨v₂, ?_, stores₂⟩
        rw [calls, called, ok_bind]
        change (calls v₁ rest >>= _) = _
        rw [later]
        rfl
  obtain ⟨v, answers, stores⟩ := run (stores_alloc log2Cap)
  obtain ⟨size, load, empty⟩ := stores.facts
  refine ⟨v, answers, size, load, empty, fun id real => ?_⟩
  obtain ⟨v', called, -⟩ := stores.call (c := .contains id) real
  rw [VisitedSet.call, bind_eq_ok] at called
  obtain ⟨found, probed, same⟩ := called
  rw [probed]
  cases same
  rfl

/-- From one slot, through two growths. -/
theorem calls_eq_onSet_five : ∃ v, (alloc 0).calls [.insert 5, .insert 9, .insert 5, .clear, .contains 9] =
    .ok ([some true, some true, some false, none, some false], v) ∧ v.size = 0 := by
  obtain ⟨v, answers, size, -⟩ :=
    @calls_eq_onSet 0 [.insert 5, .insert 9, .insert 5, .clear, .contains 9] (by
      have five : 5 < kEmpty := by decide
      have nine : 9 < kEmpty := by decide
      intro c mem
      simp only [List.mem_cons, List.not_mem_nil, or_false] at mem
      rcases mem with rfl | rfl | rfl | rfl | rfl
      exacts [five, nine, five, trivial, nine])
  exact ⟨v, answers, size⟩

end VisitedSet

end HybridSearch.Engine
