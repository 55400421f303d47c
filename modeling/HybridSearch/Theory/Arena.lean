/-
# Theory.Arena -- strings laid end to end, and their offsets

An arena keeps a list of strings as their concatenation, and one offset more
than there are strings.  The slice between two neighbouring offsets is the
string, and appending a string appends one offset.
-/
import Mathlib.Data.List.Basic
import Mathlib.Data.List.Flatten

namespace HybridSearch.Theory.Arena

set_option autoImplicit false

variable {α : Type}

/-- Where each string starts, and where the last one ends. -/
def offsets (strings : List (List α)) : List Nat :=
  (List.range (strings.length + 1)).map fun i => (strings.take i).flatten.length

theorem length_offsets (strings : List (List α)) :
    (offsets strings).length = strings.length + 1 := by
  simp [offsets]

theorem offsets_getD (strings : List (List α)) {i : Nat} (inside : i ≤ strings.length) :
    (offsets strings).getD i 0 = (strings.take i).flatten.length := by
  rw [offsets, List.getD_eq_getElem?_getD, List.getElem?_map,
    List.getElem?_range (by omega : i < strings.length + 1)]
  rfl

theorem offsets_append (strings : List (List α)) (s : List α) :
    offsets (strings ++ [s]) = offsets strings ++ [(strings ++ [s]).flatten.length] := by
  have whole : (strings ++ [s]).take (strings.length + 1) = strings ++ [s] := by
    rw [List.take_of_length_le (by simp)]
  rw [offsets, List.length_append, List.length_singleton, List.range_succ, List.map_append,
    List.map_singleton, whole]
  congr 1
  refine List.map_congr_left fun i mem => ?_
  have := List.mem_range.mp mem
  rw [List.take_append_of_le_length (by omega)]

/-- **The slice between two neighbouring offsets is the string.** -/
theorem slice_offsets {strings : List (List α)} {i : Nat} (inside : i < strings.length) :
    (strings.flatten.drop ((offsets strings).getD i 0)).take
      ((offsets strings).getD (i + 1) 0 - (offsets strings).getD i 0) = strings.getD i [] := by
  have split : strings = strings.take i ++ strings[i] :: strings.drop (i + 1) := by
    rw [List.getElem_cons_drop, List.take_append_drop]
  have flat : strings.flatten =
      (strings.take i).flatten ++ (strings[i] ++ (strings.drop (i + 1)).flatten) := by
    conv_lhs => rw [split]
    rw [List.flatten_append, List.flatten_cons]
  have next : (strings.take (i + 1)).flatten.length =
      (strings.take i).flatten.length + strings[i].length := by
    rw [List.take_succ_eq_append_getElem inside, List.flatten_append, List.length_append]
    simp
  rw [offsets_getD _ (by omega), offsets_getD _ (by omega), flat, List.drop_left' rfl, next,
    Nat.add_sub_cancel_left, List.take_left' rfl]
  simp [inside]

end HybridSearch.Theory.Arena
