/-
# Theory.Regions -- writes into flat memory

`write` puts a run of values at a place of a list, as a copy into an array does; what a
write does is read off index by index (`getElem?_write`) or slice by slice (`slice_write`,
`slice_write_apart`).  Rows of a fixed width do not meet (`rows_apart`).
-/
import Mathlib.Data.List.GetD
import Mathlib.Tactic.Linarith

namespace HybridSearch.Theory.Regions

set_option autoImplicit false

variable {α : Type}

def write (m : List α) (place : Nat) (xs : List α) : List α :=
  m.take place ++ xs ++ m.drop (place + xs.length)

theorem length_write {m xs : List α} {place : Nat} (fits : place + xs.length ≤ m.length) :
    (write m place xs).length = m.length := by
  rw [write, List.length_append, List.length_append, List.length_take, List.length_drop]
  omega

/-- **What a write leaves**: the run at its place, everything else as it was. -/
theorem getElem?_write {m xs : List α} {place : Nat} (fits : place + xs.length ≤ m.length) (i : Nat) :
    (write m place xs)[i]? =
      if place ≤ i ∧ i < place + xs.length then xs[i - place]? else m[i]? := by
  have front : (m.take place).length = place := List.length_take_of_le (by omega)
  have middle : (m.take place ++ xs).length = place + xs.length := by
    rw [List.length_append, front]
  unfold write
  by_cases before : i < place + xs.length
  · rw [List.getElem?_append_left (by omega)]
    by_cases inside : place ≤ i
    · rw [if_pos ⟨inside, before⟩, List.getElem?_append_right (by omega), front]
    · rw [if_neg (fun both => inside both.1), List.getElem?_append_left (by omega),
        List.getElem?_take_of_lt (by omega)]
  · rw [if_neg (fun both => before both.2), List.getElem?_append_right (by omega), middle,
      List.getElem?_drop]
    congr 1
    omega

theorem getD_write {m xs : List α} {place : Nat} (fits : place + xs.length ≤ m.length) (i : Nat)
    (z : α) : (write m place xs).getD i z =
      if place ≤ i ∧ i < place + xs.length then xs.getD (i - place) z else m.getD i z := by
  rw [List.getD_eq_getElem?_getD, getElem?_write fits]
  split_ifs <;> rw [List.getD_eq_getElem?_getD]

/-- Two writes, one behind the other. -/
theorem write_write {m xs ys : List α} {place : Nat} (fits : place + (xs ++ ys).length ≤ m.length) :
    write (write m place xs) (place + xs.length) ys = write m place (xs ++ ys) := by
  have total : (xs ++ ys).length = xs.length + ys.length := List.length_append
  have first : place + xs.length ≤ m.length := by omega
  have second : place + xs.length + ys.length ≤ (write m place xs).length := by
    rw [length_write first]
    omega
  refine List.ext_getElem? ?_
  intro i
  rw [getElem?_write second, getElem?_write first, getElem?_write fits]
  by_cases behind : place + xs.length ≤ i
  · by_cases inside : i < place + xs.length + ys.length
    · rw [if_pos ⟨behind, inside⟩, if_pos ⟨by omega, by omega⟩, List.getElem?_append_right (by omega),
        Nat.sub_sub]
    · rw [if_neg (fun both => inside both.2), if_neg (by omega), if_neg (by omega)]
  · rw [if_neg (fun both => behind both.1)]
    by_cases inside : place ≤ i
    · rw [if_pos ⟨inside, by omega⟩, if_pos ⟨inside, by omega⟩, List.getElem?_append_left (by omega)]
    · rw [if_neg (fun both => inside both.1), if_neg (fun both => inside both.1)]

/-- A write at the end. -/
theorem write_end (m xs pad : List α) (same : pad.length = xs.length) :
    write (m ++ pad) m.length xs = m ++ xs := by
  unfold write
  rw [List.take_left, List.drop_of_length_le (by rw [List.length_append, same]), List.append_nil]

/-! ## Slices -/

/-- `k` values from a place on. -/
def slice (m : List α) (place k : Nat) : List α := (m.drop place).take k

theorem length_slice {m : List α} {place k : Nat} (inside : place + k ≤ m.length) :
    (slice m place k).length = k := by
  rw [slice, List.length_take, List.length_drop]
  omega

theorem getElem?_slice {m : List α} {place k i : Nat} (below : i < k) :
    (slice m place k)[i]? = m[place + i]? := by
  rw [slice, List.getElem?_take_of_lt below, List.getElem?_drop]

/-- Slices are read index by index. -/
theorem slice_congr {m m' : List α} {place place' k : Nat}
    (same : ∀ i < k, m[place + i]? = m'[place' + i]?) : slice m place k = slice m' place' k := by
  refine List.ext_getElem? ?_
  intro i
  by_cases below : i < k
  · rw [getElem?_slice below, getElem?_slice below]
    exact same i below
  · rw [List.getElem?_eq_none, List.getElem?_eq_none]
    · exact (List.length_take_le _ _).trans (Nat.not_lt.mp below)
    · exact (List.length_take_le _ _).trans (Nat.not_lt.mp below)

theorem slice_self (xs : List α) : slice xs 0 xs.length = xs := by
  rw [slice, List.drop_zero, List.take_length]

/-- **The slice that was written.** -/
theorem slice_write {m xs : List α} {place : Nat} (fits : place + xs.length ≤ m.length) :
    slice (write m place xs) place xs.length = xs := by
  refine (slice_congr ?_).trans (slice_self xs)
  intro i below
  rw [getElem?_write fits, if_pos ⟨Nat.le_add_right .., by omega⟩, Nat.add_sub_cancel_left,
    Nat.zero_add]

/-- **A slice apart from the write.** -/
theorem slice_write_apart {m xs : List α} {place q k : Nat} (fits : place + xs.length ≤ m.length)
    (apart : q + k ≤ place ∨ place + xs.length ≤ q) : slice (write m place xs) q k = slice m q k := by
  refine slice_congr ?_
  intro i below
  rw [getElem?_write fits, if_neg]
  rintro ⟨low, high⟩
  omega

theorem slice_append_left {m n : List α} {q k : Nat} (inside : q + k ≤ m.length) :
    slice (m ++ n) q k = slice m q k := by
  refine slice_congr ?_
  intro i below
  exact List.getElem?_append_left (by omega)

theorem slice_append_right (m n : List α) (q k : Nat) : slice (m ++ n) (m.length + q) k = slice n q k := by
  refine slice_congr ?_
  intro i below
  rw [List.getElem?_append_right (by omega), Nat.add_assoc, Nat.add_sub_cancel_left]

/-- A slice of a slice. -/
theorem slice_slice {m : List α} {p a q k : Nat} (inside : q + k ≤ a) :
    slice (slice m p a) q k = slice m (p + q) k := by
  refine slice_congr ?_
  intro i below
  rw [getElem?_slice (by omega), Nat.add_assoc]

/-! ## Rows -/

theorem row_inside {w i j n : Nat} (row : i < n) (slot : j < w) : i * w + j < n * w := by
  have := Nat.mul_le_mul_right w (Nat.succ_le_of_lt row)
  rw [Nat.succ_mul] at this
  omega

theorem row_end_le {w i n : Nat} (row : i < n) : i * w + w ≤ n * w := by
  have := Nat.mul_le_mul_right w (Nat.succ_le_of_lt row)
  rwa [Nat.succ_mul] at this

/-- **Rows do not meet.** -/
theorem rows_apart {w i i' j j' : Nat} (slot : j < w) (slot' : j' < w)
    (same : i * w + j = i' * w + j') : i = i' ∧ j = j' := by
  rcases Nat.lt_trichotomy i i' with less | rfl | greater
  · have := @row_end_le w i i' less
    omega
  · exact ⟨rfl, by omega⟩
  · have := @row_end_le w i' i greater
    omega

/-- Rows of one width, one behind the other. -/
theorem length_rows {f : Nat → List α} {w : Nat} (n : Nat) (width : ∀ i < n, (f i).length = w) :
    ((List.range n).flatMap f).length = n * w := by
  induction n with
  | zero => rw [Nat.zero_mul]; rfl
  | succ n ih =>
      rw [List.range_succ, List.flatMap_append, List.length_append,
        ih (fun i below => width i (Nat.lt_succ_of_lt below)), List.flatMap_singleton,
        width n (Nat.lt_succ_self n), Nat.succ_mul]

/-- **Slot `j` of row `i`.** -/
theorem getD_rows {f : Nat → List α} {w n i j : Nat} (width : ∀ i < n, (f i).length = w)
    (row : i < n) (slot : j < w) (z : α) :
    ((List.range n).flatMap f).getD (i * w + j) z = (f i).getD j z := by
  induction n with
  | zero => exact absurd row (Nat.not_lt_zero i)
  | succ n ih =>
      have width' : ∀ i < n, (f i).length = w := fun i below => width i (Nat.lt_succ_of_lt below)
      have length := length_rows n width'
      rw [List.range_succ, List.flatMap_append, List.flatMap_singleton]
      rcases Nat.lt_succ_iff_lt_or_eq.mp row with below | rfl
      · rw [List.getD_append _ _ _ _ (by rw [length]; exact row_inside below slot)]
        exact ih width' below
      · rw [List.getD_append_right _ _ _ _ (by rw [length]; exact Nat.le_add_right _ _), length,
          Nat.add_sub_cancel_left]

/-- **Row `i`.** -/
theorem slice_rows {f : Nat → List α} {w n i : Nat} (width : ∀ i < n, (f i).length = w) (row : i < n) :
    slice ((List.range n).flatMap f) (i * w) w = f i := by
  induction n with
  | zero => exact absurd row (Nat.not_lt_zero i)
  | succ n ih =>
      have width' : ∀ i < n, (f i).length = w := fun i below => width i (Nat.lt_succ_of_lt below)
      have length := length_rows n width'
      rw [List.range_succ, List.flatMap_append, List.flatMap_singleton]
      rcases Nat.lt_succ_iff_lt_or_eq.mp row with below | rfl
      · rw [slice_append_left (by rw [length]; exact row_end_le below)]
        exact ih width' below
      · have own := slice_append_right ((List.range i).flatMap f) (f i) 0 w
        rw [length, Nat.add_zero] at own
        rw [own, ← width i row]
        exact slice_self (f i)

/-! ## Slots in groups -/

/-- Slots of `w`, `k` of them in every group of `u`. -/
def slot (u w k i : Nat) : Nat := i / k * u + i % k * w

/-- **A slot lies inside its group.** -/
theorem slot_inside {u w k : Nat} (some : 0 < k) (room : k * w ≤ u) (i : Nat) :
    i / k * u ≤ slot u w k i ∧ slot u w k i + w ≤ (i / k + 1) * u := by
  have last := Nat.mul_le_mul_right w (Nat.succ_le_of_lt (Nat.mod_lt i some))
  rw [Nat.succ_mul] at last
  rw [Nat.succ_mul, slot]
  omega

/-- **Slots do not meet.** -/
theorem slot_apart {u w k i j : Nat} (some : 0 < k) (room : k * w ≤ u) (less : i < j) :
    slot u w k i + w ≤ slot u w k j := by
  rcases Nat.lt_or_ge (i / k) (j / k) with before | same
  · have groups := Nat.mul_le_mul_right u (Nat.succ_le_of_lt before)
    exact (slot_inside some room i).2.trans (groups.trans (slot_inside some room j).1)
  · have together : i / k = j / k := Nat.le_antisymm (Nat.div_le_div_right (Nat.le_of_lt less)) same
    have i_eq := Nat.div_add_mod i k
    have j_eq := Nat.div_add_mod j k
    rw [together] at i_eq
    have later := Nat.mul_le_mul_right w (show i % k + 1 ≤ j % k by omega)
    rw [Nat.succ_mul] at later
    rw [slot, slot, together]
    omega

end HybridSearch.Theory.Regions
