/-
# Broker.OsaBuffers -- the row buffers of the distance

`OsaDistance` has three buffers of one row each.  It fills `cur` in place, cell by
cell, and rotates the three, so that the next row is written over the row of three
steps before.  `fillRow` never reads a cell of `cur` it has not written
(`fillRow_eq`), and the first row does not read `prev2`: what the buffers hold at
the start, or keep from earlier rows, changes nothing (`osaDistance_bounded`).
-/
import HybridSearch.Broker.SpellCorrection

namespace HybridSearch.Broker.SpellCorrector

open HybridSearch.Theory.Osa

set_option autoImplicit false
set_option linter.dupNamespace false

structure Buffers where
  prev2 : List Nat
  prev : List Nat
  cur : List Nat
  deriving DecidableEq, Repr

section InPlace

variable (a b : Word)

/-- The body of the inner loop; `cur` and `rowMin`. -/
def fillCell (prev2 prev : List Nat) (i : Nat) (acc : List Nat × Nat) (j : Nat) : List Nat × Nat :=
  let v := cell a b prev2 prev i j (acc.1.getD (j - 1) 0)
  (acc.1.set j v, min acc.2 v)

/-- Row `i`, written over `cur`, and its least cell. -/
def fillRow (rows : Buffers) (i : Nat) : List Nat × Nat :=
  (List.range' 1 b.length).foldl (fillCell a b rows.prev2 rows.prev i) (rows.cur.set 0 i, i)

/-- The rows from `i` on, with the rotation after each. -/
def fillRows (max : Nat) : Nat → Nat → Buffers → Nat
  | 0, _, rows => rows.prev.getD b.length 0
  | n + 1, i, rows =>
      let (cur, rowMin) := fillRow a b rows i
      if rowMin > max then max + 1 else fillRows max n (i + 1) ⟨rows.prev, cur, rows.prev2⟩

/-- `OsaDistance`, with its buffers. -/
def osaDistanceInPlace (max : Nat) : Nat :=
  if max < a.length - b.length ∨ max < b.length - a.length then max + 1
  else
    fillRows a b max a.length 1 ⟨List.replicate (b.length + 1) 0, List.range (b.length + 1),
      List.replicate (b.length + 1) 0⟩

end InPlace

variable {a b : Word}

/-- The inner loop writes the cells one after the other: each reads the one before it. -/
theorem foldl_fillCell (prev2 prev : List Nat) (i : Nat) {n j left least : Nat} {done rest : List Nat}
    (column : done.length + 1 = j) (room : n ≤ rest.length) :
    (List.range' j n).foldl (fillCell a b prev2 prev i) (done ++ left :: rest, least) =
      (done ++ left :: (cellsFrom a b prev2 prev i n j left ++ rest.drop n),
        (cellsFrom a b prev2 prev i n j left).foldl min least) := by
  induction n generalizing j left least done rest with
  | zero => rfl
  | succ n ih =>
      cases rest with
      | nil => simp at room
      | cons stale rest =>
          have reads : (done ++ left :: stale :: rest).getD (j - 1) 0 = left := by
            rw [List.getD_eq_getElem?_getD, List.getElem?_append_right (by omega)]
            have here : j - 1 - done.length = 0 := by omega
            rw [here]
            rfl
          have writes (v : Nat) : (done ++ left :: stale :: rest).set j v =
              (done ++ [left]) ++ v :: rest := by
            rw [List.set_append_right _ _ (by omega)]
            have here : j - done.length = 1 := by omega
            rw [here, List.append_assoc]
            rfl
          rw [List.range'_succ, List.foldl_cons]
          conv_lhs => rw [fillCell, reads, writes]
          rw [@ih (j + 1) _ _ (done ++ [left]) rest (by simp [column]) (by simpa using room), cellsFrom,
            List.append_assoc]
          rfl

/-- **A row is filled as if its buffer were new**, whatever it holds. -/
theorem fillRow_eq (rows : Buffers) (i : Nat) (room : rows.cur.length = b.length + 1) :
    fillRow a b rows i = (row a b rows.prev2 rows.prev i,
      (row a b rows.prev2 rows.prev i).foldl min i) := by
  obtain ⟨prev2, prev, cur⟩ := rows
  cases cur with
  | nil => simp at room
  | cons stale rest =>
      have size : rest.length = b.length := by simpa using room
      have cells := @foldl_fillCell a b prev2 prev i b.length 1 i i [] rest rfl (by omega)
      rw [List.nil_append, List.nil_append, ← size, List.drop_length, List.append_nil, size] at cells
      rw [fillRow, List.set_cons_zero, cells, row, List.foldl_cons, min_self]

theorem length_cellsFrom (prev2 prev : List Nat) (i n j left : Nat) :
    (cellsFrom a b prev2 prev i n j left).length = n := by
  induction n generalizing j left with
  | zero => rfl
  | succ n ih => rw [cellsFrom, List.length_cons, ih]

theorem length_row (prev2 prev : List Nat) (i : Nat) : (row a b prev2 prev i).length = b.length + 1 := by
  rw [row, List.length_cons, length_cellsFrom]

/-- Buffers with room for a row of `b`. -/
structure Buffers.Sized (b : Word) (rows : Buffers) : Prop where
  prev2 : rows.prev2.length = b.length + 1
  prev : rows.prev.length = b.length + 1
  cur : rows.cur.length = b.length + 1

/-- **The rotated buffers are the rows that were filled.** -/
theorem fillRows_eq (max n i : Nat) {rows : Buffers} (sized : rows.Sized b) :
    fillRows a b max n i rows = rowsFrom a b max n i rows.prev2 rows.prev := by
  induction n generalizing i rows with
  | zero => rfl
  | succ n ih =>
      rw [fillRows, fillRow_eq rows i sized.cur, rowsFrom]
      dsimp only
      split
      · rfl
      · exact ih (i + 1) ⟨sized.prev, length_row _ _ _, sized.prev2⟩

/-- The first row does not read the row two before it. -/
theorem row_one (prev2 prev2' prev : List Nat) : row a b prev2 prev 1 = row a b prev2' prev 1 := by
  have cells : ∀ n j left, cellsFrom a b prev2 prev 1 n j left = cellsFrom a b prev2' prev 1 n j left := by
    intro n
    induction n with
    | zero => exact fun _ _ => rfl
    | succ n ih =>
        intro j left
        have same : cell a b prev2 prev 1 j left = cell a b prev2' prev 1 j left := by
          simp [cell]
        rw [cellsFrom, cellsFrom, same, ih]
  rw [row, row, cells]

theorem rowsFrom_one (max n : Nat) (prev2 prev2' prev : List Nat) :
    rowsFrom a b max n 1 prev2 prev = rowsFrom a b max n 1 prev2' prev := by
  cases n with
  | zero => rfl
  | succ n => rw [rowsFrom, rowsFrom, row_one prev2 prev2']

theorem osaDistanceInPlace_eq (a b : Word) (max : Nat) :
    osaDistanceInPlace a b max = osaDistance a b max := by
  unfold osaDistanceInPlace osaDistance
  split
  · rfl
  · exact fillRows_eq max a.length 1 ⟨by simp, by simp, by simp⟩

/-- **The bounded distance**: it is within the bound exactly when the distance is, which is the
least cost of an alignment, and then it is the distance.  What `prev2` and `cur` hold before
the first row changes nothing. -/
theorem osaDistance_bounded (a b : Word) (max : Nat) :
    (osaDistanceInPlace a b max ≤ max ↔ osa a b ≤ max) ∧
    (osa a b ≤ max ↔ ∃ c ≤ max, Aligns a b c) ∧
    (osa a b ≤ max → osaDistanceInPlace a b max = osa a b) ∧
    ∀ stale : Buffers, stale.Sized b → ∀ n,
      fillRows a b max n 1 { stale with prev := List.range (b.length + 1) } =
        fillRows a b max n 1 ⟨List.replicate (b.length + 1) 0, List.range (b.length + 1),
          List.replicate (b.length + 1) 0⟩ := by
  obtain ⟨close, far⟩ := osaDistance_spec a b max
  rw [osaDistanceInPlace_eq]
  refine ⟨⟨fun within => ?_, fun within => ?_⟩, osa_le_iff, close, fun stale sized n => ?_⟩
  · by_contra beyond
    have := far (not_le.mp beyond)
    omega
  · rw [close within]
    exact within
  · have mixed : Buffers.Sized b { stale with prev := List.range (b.length + 1) } :=
      ⟨sized.prev2, List.length_range, sized.cur⟩
    have zeroed : Buffers.Sized b ⟨List.replicate (b.length + 1) 0, List.range (b.length + 1),
        List.replicate (b.length + 1) 0⟩ :=
      ⟨List.length_replicate, List.length_range, List.length_replicate⟩
    rw [fillRows_eq max n 1 mixed, fillRows_eq max n 1 zeroed]
    exact rowsFrom_one max n _ _ _

end HybridSearch.Broker.SpellCorrector
