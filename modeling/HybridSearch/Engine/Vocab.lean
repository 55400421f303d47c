/-
# Engine.Vocab -- the builder's term table (index_builder.cc, `hash_bytes`, `Vocab`)

Terms get dense ids in order of first occurrence.  The strings lie in one
append-only arena; an open-addressing table of ids, probed linearly from the
hash, finds them again and doubles past a load of 0.7.

`Holds v names` says that `v` stores exactly the list `names`, id `i` being
element `i`.  `getOrAdd_holds` is the one specification of the table the rest of
the development uses; it holds for every hash function.
-/
import HybridSearch.Engine.Machine
import HybridSearch.Theory.Arena
import HybridSearch.Theory.LinearProbe
import Mathlib.Data.List.Induction
import Mathlib.Data.List.Nodup
import Mathlib.Tactic.Linarith

namespace HybridSearch.Engine

open HybridSearch.Theory

set_option autoImplicit false

/-! ## `hash_bytes` -/

/-- `memcpy` of up to eight bytes into a zeroed little-endian word. -/
def leValue (bytes : Bytes) : Nat := bytes.foldr (fun b acc => b.toNat + 256 * acc) 0

/-- The loop over whole words, and the tail. -/
def hashLoop : Bytes → Nat → Nat
  | b₀ :: b₁ :: b₂ :: b₃ :: b₄ :: b₅ :: b₆ :: b₇ :: rest, h =>
      let k := leValue [b₀, b₁, b₂, b₃, b₄, b₅, b₆, b₇]
      let h := u64 ((h ^^^ k) * 0xFF51AFD7ED558CCD)
      hashLoop rest (h ^^^ h >>> 32)
  | tail, h =>
      let h := u64 ((h ^^^ leValue tail) * 0xC4CEB9FE1A85EC53)
      h ^^^ h >>> 29

/-- `hash_bytes`. -/
def hashBytes (s : Bytes) : Nat :=
  hashLoop s (0x9E3779B97F4A7C15 ^^^ u64 (s.length * 0xC2B2AE3D27D4EB4F))

/-! ## The table -/

structure Vocab where
  arena : Bytes
  off : List Nat
  table : Nat → Nat
  tableSize : Nat
  mask : Nat

namespace Vocab

/-- `kEmpty`. -/
abbrev kEmpty : Nat := uint32Max

def init : Vocab where
  arena := []
  off := [0]
  table := fun _ => kEmpty
  tableSize := 1 <<< 20
  mask := 1 <<< 20 - 1

def size (v : Vocab) : Nat := u32 (v.off.length - 1)

def str (v : Vocab) (id : Nat) : Bytes :=
  (v.arena.drop (v.off.getD id 0)).take (v.off.getD (id + 1) 0 - v.off.getD id 0)

/-- The probe loop of `get_or_add`: the id found, or the empty slot it ended on. -/
def probe (v : Vocab) (s : Bytes) : Nat → Nat → Except Fault (Nat ⊕ Nat)
  | 0, _ => .error .diverged
  | fuel + 1, i =>
      let id := v.table i
      if id = kEmpty then .ok (.inr i)
      else if v.str id = s then .ok (.inl id)
      else probe v s fuel ((i + 1) &&& v.mask)

/-- The probe loop of `grow`. -/
def firstEmpty (t : Nat → Nat) (m : Nat) : Nat → Nat → Except Fault Nat
  | 0, _ => .error .diverged
  | fuel + 1, i => if t i = kEmpty then .ok i else firstEmpty t m fuel ((i + 1) &&& m)

variable (hash : Bytes → Nat)

def grow (v : Vocab) : Except Fault Vocab := do
  let n := v.tableSize * 2
  let m := n - 1
  let t ← (List.range v.size).foldlM (fun t id => do
    let i ← firstEmpty t m n (hash (v.str id) &&& m)
    pure (Function.update t i id)) (fun _ => kEmpty)
  pure { v with table := t, tableSize := n, mask := m }

/-- `get_or_add`, for any hash function. -/
def getOrAdd (v : Vocab) (s : Bytes) : Except Fault (Nat × Vocab) := do
  match ← v.probe s v.tableSize (hash s &&& v.mask) with
  | .inl id => pure (id, v)
  | .inr i =>
      let id := v.size
      let arena := v.arena ++ s
      let v := { v with
        arena := arena
        off := v.off ++ [arena.length]
        table := Function.update v.table i id }
      if v.tableSize * 7 < v.size * 10 then
        let v ← v.grow hash
        pure (id, v)
      else pure (id, v)

/-! ## What the table stores -/

/-- The slots of a table, with `kEmpty` read as free. -/
def slots (t : Nat → Nat) (i : Nat) : Option Nat := if t i = kEmpty then none else some (t i)

/-- A table of `2 ^ k` slots holds the ids below `m`, each placed from its home. -/
structure TableHolds (home : Nat → Nat) (t : Nat → Nat) (n m : Nat) : Prop where
  known : ∀ i < n, ∀ id, slots t i = some id → id < m
  once : ∀ i < n, ∀ j < n, ∀ id, slots t i = some id → slots t j = some id → i = j
  placed : ∀ id < m, LinearProbe.Placed n (slots t) (home id) id

/-- The arena of `v` holds the strings `names`, element `i` under id `i`. -/
structure Strings (v : Vocab) (names : List Bytes) : Prop where
  arena : v.arena = names.flatten
  off : v.off = Arena.offsets names
  few : names.length < 2 ^ 32

/-- `v` stores exactly the strings `names`, and its table finds each of them. -/
structure Holds (v : Vocab) (names : List Bytes) : Prop extends Strings v names where
  nodup : names.Nodup
  power : ∃ k, v.tableSize = 2 ^ k ∧ 1 ≤ k
  mask : v.mask = v.tableSize - 1
  load : names.length * 10 ≤ v.tableSize * 7
  table : TableHolds (fun id => hash (names.getD id []) % v.tableSize) v.table v.tableSize
    names.length

variable {hash}

theorem and_mask {k : Nat} (x : Nat) : x &&& (2 ^ k - 1) = x % 2 ^ k :=
  Nat.and_two_pow_sub_one_eq_mod x k

/-! ## Strings -/

namespace Strings

variable {v : Vocab} {names : List Bytes}

theorem size_eq (strings : v.Strings names) : v.size = names.length := by
  rw [size, strings.off, Arena.length_offsets, Nat.add_sub_cancel, u32, Nat.mod_eq_of_lt strings.few]

theorem str_eq (strings : v.Strings names) {id : Nat} (inside : id < names.length) :
    v.str id = names.getD id [] := by
  rw [str, strings.off, strings.arena]
  exact Arena.slice_offsets inside

end Strings

namespace Holds

variable {v : Vocab} {names : List Bytes}

theorem pos (holds : v.Holds hash names) : 0 < v.tableSize := by
  obtain ⟨k, size, _⟩ := holds.power
  rw [size]
  exact Nat.two_pow_pos k

theorem free (holds : v.Holds hash names) : ∃ i < v.tableSize, slots v.table i = none := by
  have load := holds.load
  have pos := holds.pos
  exact LinearProbe.exists_free (by omega) holds.table.known holds.table.once

end Holds

/-! ## The probe loops are walks -/

theorem probe_eq_walk {v : Vocab} {k : Nat} (size : v.tableSize = 2 ^ k)
    (mask : v.mask = v.tableSize - 1) (s : Bytes) (fuel i : Nat) :
    v.probe s fuel i =
      match LinearProbe.walk v.tableSize (slots v.table) (fun id => v.str id = s) fuel i with
      | none => .error .diverged
      | some j => match slots v.table j with
        | none => .ok (.inr j)
        | some id => .ok (.inl id) := by
  induction fuel generalizing i with
  | zero => rfl
  | succ fuel ih =>
      have wrap : (i + 1) &&& v.mask = (i + 1) % v.tableSize := by rw [mask, size, and_mask]
      by_cases empty : v.table i = kEmpty
      · simp [probe, LinearProbe.walk, slots, empty]
      · have taken : slots v.table i = some (v.table i) := if_neg empty
        by_cases same : v.str (v.table i) = s
        · simp [probe, LinearProbe.walk, taken, empty, same]
        · simp only [probe, if_neg empty, if_neg same, wrap, ih, LinearProbe.walk, taken,
            decide_eq_true_eq]

theorem firstEmpty_eq_walk {t : Nat → Nat} {m n k : Nat} (size : n = 2 ^ k) (mask : m = n - 1)
    (fuel i : Nat) : firstEmpty t m fuel i =
      match LinearProbe.walk n (slots t) (fun _ => false) fuel i with
      | none => .error .diverged
      | some j => .ok j := by
  induction fuel generalizing i with
  | zero => rfl
  | succ fuel ih =>
      have wrap : (i + 1) &&& m = (i + 1) % n := by rw [mask, size, and_mask]
      by_cases empty : t i = kEmpty
      · simp [firstEmpty, LinearProbe.walk, slots, empty]
      · have taken : slots t i = some (t i) := if_neg empty
        simp [firstEmpty, LinearProbe.walk, taken, if_neg empty, wrap, ih]

/-! ## Adding an id -/

theorem slots_update (t : Nat → Nat) {i id : Nat} (real : id ≠ kEmpty) :
    slots (Function.update t i id) = Function.update (slots t) i (some id) := by
  funext j
  by_cases same : j = i
  · subst same
    simp [slots, real]
  · simp [slots, Function.update_of_ne same]

/-- **Filling the free slot the walk from the next id's home ended on.** -/
theorem TableHolds.add {home : Nat → Nat} {t : Nat → Nat} {n m d : Nat} {hit : Nat → Bool}
    (holds : TableHolds home t n m) (real : m ≠ kEmpty) (less : d < n)
    (before : ∀ e < d, ¬ LinearProbe.Stop (slots t) hit (LinearProbe.slot n (home m) e))
    (isFree : slots t (LinearProbe.slot n (home m) d) = none) :
    TableHolds home (Function.update t (LinearProbe.slot n (home m) d) m) n (m + 1) := by
  have filled := slots_update t (i := LinearProbe.slot n (home m) d) real
  constructor
  · intro i inside id slot_eq
    rw [filled] at slot_eq
    by_cases same : i = LinearProbe.slot n (home m) d
    · subst same
      rw [Function.update_self] at slot_eq
      injection slot_eq
      omega
    · rw [Function.update_of_ne same] at slot_eq
      have := holds.known i inside id slot_eq
      omega
  · intro i insideI j insideJ id atI atJ
    rw [filled] at atI atJ
    by_cases sameI : i = LinearProbe.slot n (home m) d
    · by_cases sameJ : j = LinearProbe.slot n (home m) d
      · rw [sameI, sameJ]
      · rw [sameI, Function.update_self] at atI
        rw [Function.update_of_ne sameJ] at atJ
        have := holds.known j insideJ id atJ
        injection atI
        omega
    · rw [Function.update_of_ne sameI] at atI
      by_cases sameJ : j = LinearProbe.slot n (home m) d
      · rw [sameJ, Function.update_self] at atJ
        have := holds.known i insideI id atI
        injection atJ
        omega
      · rw [Function.update_of_ne sameJ] at atJ
        exact holds.once i insideI j insideJ id atI atJ
  · intro id less'
    rw [filled]
    rcases Nat.lt_succ_iff_lt_or_eq.mp less' with old | rfl
    · exact (holds.placed id old).update isFree m
    · exact LinearProbe.placed_update less before isFree id

/-- One round of `grow`'s loop. -/
theorem TableHolds.grow_step {home : Nat → Nat} {t : Nat → Nat} {n m k : Nat} (size : n = 2 ^ k)
    (holds : TableHolds home t n m) (fewer : m < n) (real : m ≠ kEmpty) (inside : home m < n) :
    ∃ i, firstEmpty t (n - 1) n (home m) = .ok i ∧
      TableHolds home (Function.update t i m) n (m + 1) := by
  obtain ⟨free, freeInside, isFree⟩ := LinearProbe.exists_free fewer holds.known holds.once
  obtain ⟨d, less, walked, stop, before⟩ :=
    LinearProbe.walk_stops (fun _ => false) freeInside isFree inside
  have empty : slots t (LinearProbe.slot n (home m) d) = none := by
    cases slot_eq : slots t (LinearProbe.slot n (home m) d) with
    | none => rfl
    | some id => exact absurd (stop id slot_eq) Bool.false_ne_true
  refine ⟨_, ?_, holds.add real less before empty⟩
  rw [firstEmpty_eq_walk size rfl, walked]

theorem tableHolds_empty (home : Nat → Nat) (n : Nat) :
    TableHolds home (fun _ => kEmpty) n 0 := by
  have nothing : ∀ i id, slots (fun _ => kEmpty) i ≠ some id := fun i id => by simp [slots]
  constructor
  · intro i _ id slot_eq
    exact absurd slot_eq (nothing i id)
  · intro i _ j _ id slot_eq
    exact absurd slot_eq (nothing i id)
  · intro id less
    omega

/-- Only the homes of the ids present matter. -/
theorem TableHolds.congr {home home' : Nat → Nat} {t : Nat → Nat} {n m : Nat}
    (holds : TableHolds home t n m) (same : ∀ id < m, home id = home' id) :
    TableHolds home' t n m where
  known := holds.known
  once := holds.once
  placed := fun id less => same id less ▸ holds.placed id less

/-- **`grow` keeps every string under its id.** -/
theorem grow_table {v : Vocab} {m k : Nat} (size : v.tableSize = 2 ^ k) (ids : v.size = m)
    (fewer : m ≤ v.tableSize) (few : m < 2 ^ 32) :
    ∃ t, grow hash v =
        .ok { v with table := t, tableSize := v.tableSize * 2, mask := v.tableSize * 2 - 1 } ∧
      TableHolds (fun id => hash (v.str id) % (v.tableSize * 2)) t (v.tableSize * 2) m := by
  have size' : v.tableSize * 2 = 2 ^ (k + 1) := by rw [size, pow_succ]
  have pos : 0 < v.tableSize := by
    rw [size]
    exact Nat.two_pow_pos k
  let home := fun id => hash (v.str id) % (v.tableSize * 2)
  let body := fun (t : Nat → Nat) (id : Nat) => do
    let i ← firstEmpty t (v.tableSize * 2 - 1) (v.tableSize * 2)
      (hash (v.str id) &&& (v.tableSize * 2 - 1))
    pure (f := Except Fault) (Function.update t i id)
  have loop : ∀ j ≤ m, ∃ t, (List.range j).foldlM body (fun _ => kEmpty) = .ok t ∧
      TableHolds home t (v.tableSize * 2) j := by
    intro j le
    induction j with
    | zero => exact ⟨_, rfl, tableHolds_empty home _⟩
    | succ j ih =>
        obtain ⟨t, run, holds⟩ := ih (by omega)
        obtain ⟨i, found, next⟩ := holds.grow_step size' (by omega)
          (by simp only [kEmpty, uint32Max]; omega) (Nat.mod_lt _ (by omega))
        refine ⟨Function.update t i j, ?_, next⟩
        have step : body t j = .ok (Function.update t i j) := by
          have start : hash (v.str j) &&& (v.tableSize * 2 - 1) = home j := by
            simp only [home, size', and_mask]
          simp only [body, start, found]
          rfl
        rw [List.range_succ, List.foldlM_append, run]
        simp only [bind, Except.bind, List.foldlM_cons, List.foldlM_nil, step]
        rfl
  obtain ⟨t, run, holds⟩ := loop m le_rfl
  refine ⟨t, ?_, holds⟩
  rw [← ids] at run
  simp only [grow]
  change (do let t ← List.foldlM body (fun _ => kEmpty) (List.range v.size); pure _) = _
  rw [run]
  rfl

/-! ## `get_or_add` -/

theorem holds_init : init.Holds hash [] where
  arena := rfl
  off := rfl
  few := by decide
  nodup := List.nodup_nil
  power := ⟨20, rfl, by decide⟩
  mask := rfl
  load := Nat.zero_le _
  table := tableHolds_empty _ _

/-- The stored strings once `s` has been looked up. -/
def addName (names : List Bytes) (s : Bytes) : List Bytes :=
  if s ∈ names then names else names ++ [s]

/-- The arena and the offsets after `s` was appended. -/
theorem Strings.append {v v' : Vocab} {names : List Bytes} (strings : v.Strings names) {s : Bytes}
    (arena : v'.arena = v.arena ++ s) (off : v'.off = v.off ++ [v'.arena.length])
    (few : names.length + 1 < 2 ^ 32) : v'.Strings (names ++ [s]) where
  arena := by rw [arena, strings.arena, List.flatten_append, List.flatten_singleton]
  off := by
    rw [off, arena, strings.off, strings.arena, Arena.offsets_append, List.flatten_append,
      List.flatten_singleton]
  few := by
    rw [List.length_append, List.length_singleton]
    exact few

/-- **`get_or_add` keeps a list of distinct strings**: a stored string is found
under its index, a new one is appended, and growing changes neither. -/
theorem getOrAdd_holds {v : Vocab} {names : List Bytes} (holds : v.Holds hash names) (s : Bytes)
    (few : (addName names s).length < 2 ^ 32) :
    ∃ v', getOrAdd hash v s = .ok ((addName names s).idxOf s, v') ∧
      v'.Holds hash (addName names s) := by
  obtain ⟨k, size, large⟩ := holds.power
  have start : hash s &&& v.mask = hash s % v.tableSize := by rw [holds.mask, size, and_mask]
  obtain ⟨free, freeInside, isFree⟩ := holds.free
  obtain ⟨d, less, walked, stop, before⟩ :=
    LinearProbe.walk_stops (fun id => decide (v.str id = s)) freeInside isFree
      (Nat.mod_lt (hash s) holds.pos)
  have probed := probe_eq_walk size holds.mask s v.tableSize (hash s % v.tableSize)
  rw [walked] at probed
  cases slot_eq : slots v.table (LinearProbe.slot v.tableSize (hash s % v.tableSize) d) with
  | some id =>
      have inside := holds.table.known _ (LinearProbe.slot_lt holds.pos _ _) id slot_eq
      have string : names.getD id [] = s := by
        rw [← holds.str_eq inside]
        exact of_decide_eq_true (stop id slot_eq)
      have string' : names[id] = s := by simpa [inside] using string
      have known : s ∈ names := string' ▸ List.getElem_mem inside
      have index : names.idxOf s = id := by
        rw [← string']
        exact holds.nodup.idxOf_getElem id inside
      refine ⟨v, ?_, by rwa [addName, if_pos known]⟩
      rw [addName, if_pos known, index, getOrAdd, start, probed]
      simp only [slot_eq]
      rfl
  | none =>
      have new : s ∉ names := by
        intro known
        have inside := List.idxOf_lt_length_of_mem known
        have string : names.getD (names.idxOf s) [] = s := by simp [inside]
        have placed := holds.table.placed _ inside
        simp only [string] at placed
        have isHit : decide (v.str (names.idxOf s) = s) = true := by
          rw [holds.str_eq inside, string, decide_eq_true_eq]
        exact LinearProbe.walk_hits placed isHit before slot_eq
      have names' : addName names s = names ++ [s] := if_neg new
      rw [names', List.length_append, List.length_singleton] at few
      have index : (names ++ [s]).idxOf s = names.length := by
        rw [List.idxOf_append_of_notMem new]
        simp
      have last : (names ++ [s]).getD names.length [] = s := by simp
      have front : ∀ id < names.length, (names ++ [s]).getD id [] = names.getD id [] :=
        fun id inside => List.getD_append _ _ _ _ inside
      have nodup : (names ++ [s]).Nodup := by
        rw [List.nodup_append_comm]
        exact List.nodup_cons.mpr ⟨new, holds.nodup⟩
      -- the table with the new id in the slot the probe ended on
      have filled : TableHolds
          (fun id => hash ((names ++ [s]).getD id []) % v.tableSize)
          (Function.update v.table (LinearProbe.slot v.tableSize (hash s % v.tableSize) d)
            names.length) v.tableSize (names.length + 1) := by
        have old : TableHolds (fun id => hash ((names ++ [s]).getD id []) % v.tableSize) v.table
            v.tableSize names.length :=
          holds.table.congr fun id inside => by simp only [front id inside]
        have real : names.length ≠ kEmpty := by
          simp only [kEmpty, uint32Max]
          omega
        have added := @TableHolds.add _ _ _ _ d (fun id => decide (v.str id = s)) old real less
        simp only [last] at added
        exact added before slot_eq
      let v₁ : Vocab := { v with
        arena := v.arena ++ s
        off := v.off ++ [(v.arena ++ s).length]
        table := Function.update v.table
          (LinearProbe.slot v.tableSize (hash s % v.tableSize) d) names.length }
      have strings : v₁.Strings (names ++ [s]) := holds.toStrings.append rfl rfl few
      have size₁ : v₁.size = names.length + 1 := by
        rw [strings.size_eq, List.length_append, List.length_singleton]
      have added : getOrAdd hash v s =
          if v₁.tableSize * 7 < v₁.size * 10 then do
            let v ← v₁.grow hash
            pure (names.length, v)
          else pure (names.length, v₁) := by
        rw [getOrAdd, start, probed]
        simp only [slot_eq, holds.size_eq]
        rfl
      rw [names', index, added]
      have load := holds.load
      have sizeIs : v₁.tableSize = v.tableSize := rfl
      by_cases full : v₁.tableSize * 7 < v₁.size * 10
      · rw [if_pos full]
        obtain ⟨t, grown, table⟩ := @grow_table hash v₁ _ _ size size₁
          (by omega) few
        refine ⟨_, by rw [grown]; rfl, ?_⟩
        have table' : TableHolds (fun id => hash ((names ++ [s]).getD id []) % (v.tableSize * 2)) t
            (v.tableSize * 2) (names.length + 1) := table.congr fun id inside => by
            rw [strings.str_eq (by rw [List.length_append, List.length_singleton]; exact inside)]
        have two : 2 ≤ v.tableSize := by
          rw [size]
          exact le_trans (by norm_num) (Nat.pow_le_pow_right (by decide) large)
        exact {
          arena := strings.arena
          off := strings.off
          few := strings.few
          nodup := nodup
          power := ⟨k + 1, by rw [sizeIs, size, pow_succ], by omega⟩
          mask := rfl
          load := by
            rw [List.length_append, List.length_singleton]
            change (names.length + 1) * 10 ≤ v.tableSize * 2 * 7
            omega
          table := by
            rw [List.length_append, List.length_singleton]
            exact table' }
      · rw [if_neg full]
        exact ⟨v₁, rfl, {
          toStrings := strings
          nodup := nodup
          power := ⟨k, size, large⟩
          mask := holds.mask
          load := by
            rw [List.length_append, List.length_singleton]
            omega
          table := by
            rw [List.length_append, List.length_singleton]
            exact filled }⟩

/-! ## Sequences of calls -/

/-- The ids of a sequence of strings, and the table after it. -/
def addAll (hash : Bytes → Nat) (v : Vocab) : List Bytes → Except Fault (List Nat × Vocab)
  | [] => pure ([], v)
  | s :: rest => do
      let (id, v) ← v.getOrAdd hash s
      let (ids, v) ← addAll hash v rest
      pure (id :: ids, v)

/-- The stored strings once all of `strings` have been looked up. -/
def addNames (names strings : List Bytes) : List Bytes := strings.foldl addName names

theorem prefix_addName (names : List Bytes) (s : Bytes) : names <+: addName names s := by
  rw [addName]
  split_ifs
  · exact List.prefix_rfl
  · exact List.prefix_append _ _

theorem prefix_addNames (names strings : List Bytes) : names <+: addNames names strings := by
  induction strings generalizing names with
  | nil => exact List.prefix_rfl
  | cons s rest ih => exact (prefix_addName names s).trans (ih _)

theorem mem_addName {names : List Bytes} {s t : Bytes} : t ∈ addName names s ↔ t ∈ names ∨ t = s := by
  rw [addName]
  split_ifs with known
  · exact ⟨Or.inl, fun either => either.elim id fun same => same ▸ known⟩
  · rw [List.mem_append, List.mem_singleton]

theorem nodup_addName {names : List Bytes} (nodup : names.Nodup) (s : Bytes) : (addName names s).Nodup := by
  rw [addName]
  split_ifs with known
  · exact nodup
  · rw [List.nodup_append_comm]
    exact List.nodup_cons.mpr ⟨known, nodup⟩

/-- What is stored: every string once. -/
theorem addNames_strings (strings : List Bytes) :
    (addNames [] strings).Nodup ∧ ∀ t, t ∈ addNames [] strings ↔ t ∈ strings := by
  induction strings using List.reverseRecOn with
  | nil => exact ⟨List.nodup_nil, fun t => Iff.rfl⟩
  | append_singleton front s ih =>
      have last : addNames [] (front ++ [s]) = addName (addNames [] front) s := List.foldl_append ..
      rw [last]
      refine ⟨nodup_addName ih.1 s, fun t => ?_⟩
      rw [mem_addName, ih.2, List.mem_append, List.mem_singleton]

theorem length_addNames (strings : List Bytes) :
    (addNames [] strings).length = strings.toFinset.card := by
  obtain ⟨nodup, same⟩ := addNames_strings strings
  rw [← List.toFinset_card_of_nodup nodup]
  congr 1
  ext t
  rw [List.mem_toFinset, List.mem_toFinset, same]

/-- **The index of a string** is the number of the strings before its first occurrence. -/
theorem idxOf_addNames {strings : List Bytes} {t : Bytes} (mem : t ∈ strings) :
    (addNames [] strings).idxOf t = (strings.take (strings.idxOf t)).toFinset.card := by
  induction strings using List.reverseRecOn with
  | nil => cases mem
  | append_singleton front s ih =>
      have last : addNames [] (front ++ [s]) = addName (addNames [] front) s := List.foldl_append ..
      rw [last]
      by_cases old : t ∈ front
      · have known : t ∈ addNames [] front := ((addNames_strings front).2 t).mpr old
        have below := List.idxOf_lt_length_of_mem old
        rw [← (prefix_addName _ s).idxOf_eq_of_mem known, ih old, List.idxOf_append_of_mem old,
          List.take_append_of_le_length below.le]
      · have same : t = s := (List.mem_append.mp mem).elim (absurd · old) List.mem_singleton.mp
        subst same
        have new : t ∉ addNames [] front := fun known => old (((addNames_strings front).2 t).mp known)
        rw [addName, if_neg new, List.idxOf_append_of_notMem new, List.idxOf_append_of_notMem old,
          List.idxOf_cons_self, Nat.add_zero, Nat.add_zero, List.take_left, length_addNames]

/-- **A sequence of calls** keeps the list of distinct strings and returns the index of each. -/
theorem addAll_holds {hash : Bytes → Nat} {v : Vocab} {names strings : List Bytes}
    (holds : v.Holds hash names) (few : (addNames names strings).length < 2 ^ 32) :
    ∃ v', v.addAll hash strings = .ok (strings.map (addNames names strings).idxOf, v') ∧
      v'.Holds hash (addNames names strings) := by
  induction strings generalizing v names with
  | nil => exact ⟨v, rfl, holds⟩
  | cons s rest ih =>
      have grows : addName names s <+: addNames names (s :: rest) := prefix_addNames (addName names s) rest
      obtain ⟨v₁, added, holds₁⟩ := getOrAdd_holds holds s (grows.length_le.trans_lt few)
      obtain ⟨v₂, later, holds₂⟩ := ih holds₁ few
      refine ⟨v₂, ?_, holds₂⟩
      rw [addAll, added, ok_bind]
      change (addAll hash v₁ rest >>= _) = _
      rw [later, ok_bind, List.map_cons, ← grows.idxOf_eq_of_mem (mem_addName.mpr (Or.inr rfl))]
      rfl

/-- **Vocabulary ids are a bijection**, for any hash function: equal strings have one id, different
ones different ids, an id is the number of distinct strings before, and `str` returns its string. -/
theorem addAll_bijective (hash : Bytes → Nat) {strings : List Bytes}
    (few : strings.toFinset.card < 2 ^ 32 - 1) :
    ∃ v, ∃ ids : List Nat, init.addAll hash strings = .ok (ids, v) ∧
      ids.length = strings.length ∧ v.size = strings.toFinset.card ∧
      (∀ i j : Fin strings.length, ids.getD i 0 = ids.getD j 0 ↔ strings.get i = strings.get j) ∧
      ∀ i : Fin strings.length,
        ids.getD i 0 = (strings.take (strings.idxOf (strings.get i))).toFinset.card ∧
        v.str (ids.getD i 0) = strings.get i := by
  have length := length_addNames strings
  obtain ⟨v, run, holds⟩ := @addAll_holds hash init [] strings holds_init (by omega)
  have index (i : Fin strings.length) :
      (strings.map (addNames [] strings).idxOf).getD i 0 = (addNames [] strings).idxOf (strings.get i) := by
    rw [List.getD_eq_getElem _ _ (by rw [List.length_map]; exact i.isLt), List.getElem_map]
    rfl
  have stored (i : Fin strings.length) : strings.get i ∈ addNames [] strings :=
    ((addNames_strings strings).2 _).mpr (List.get_mem _ _)
  refine ⟨v, _, run, List.length_map _, ?_, ?_, ?_⟩
  · rw [holds.toStrings.size_eq, length]
  · intro i j
    rw [index, index]
    exact ⟨fun same => (List.idxOf_inj (stored i)).mp same, fun same => by rw [same]⟩
  · intro i
    have inside := List.idxOf_lt_length_of_mem (stored i)
    rw [index]
    refine ⟨idxOf_addNames (List.get_mem _ _), ?_⟩
    rw [holds.toStrings.str_eq inside, List.getD_eq_getElem _ _ inside]
    exact List.getElem_idxOf inside

/-- Under a hash that sends every string to one slot. -/
theorem addAll_bijective_colliding : ∃ v, ∃ ids : List Nat,
    init.addAll (fun _ => 0) [[], [104, 105], [], [104]] = .ok (ids, v) ∧ ids.length = 4 := by
  obtain ⟨v, ids, run, length, -⟩ :=
    @addAll_bijective (fun _ => 0) [[], [104, 105], [], [104]] (by decide)
  exact ⟨v, ids, run, length⟩

end Vocab

end HybridSearch.Engine
