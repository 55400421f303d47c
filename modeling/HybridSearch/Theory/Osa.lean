/-
# Theory.Osa -- optimal string alignment

`osaAt a b i j` is the optimal string alignment distance of the first `i` letters
of `a` and the first `j` of `b`: insertions, deletions, substitutions and
transpositions of neighbours, none inside another.  `Aligns a b c` is an alignment
of cost `c`, read from the front.

* `osaAt_aligns`: the distance is the cost of an alignment, and of the cheapest one
  (`osa_le_iff`);
* `Aligns.common`: strings within distance `c` keep, in windows of any two lengths
  at their front, a common subsequence that leaves out at most `c` letters of each
  and the difference of the windows;
* `osaAt_gt_of_row`: a row of the table above a bound stays above it.
-/
import Mathlib.Data.List.Sublists
import Mathlib.Order.MinMax

namespace HybridSearch.Theory.Osa

set_option autoImplicit false

variable {α : Type} [DecidableEq α]

def osaAt (a b : List α) : Nat → Nat → Nat
  | 0, j => j
  | i + 1, 0 => i + 1
  | i + 1, j + 1 =>
      let v := min (min (osaAt a b i (j + 1) + 1) (osaAt a b (i + 1) j + 1))
        (osaAt a b i j + if a[i]? = b[j]? then 0 else 1)
      if 0 < i ∧ 0 < j ∧ a[i]? = b[j - 1]? ∧ a[i - 1]? = b[j]? then
        min v (osaAt a b (i - 1) (j - 1) + 1)
      else v
  termination_by i j => i + j

def osa (a b : List α) : Nat := osaAt a b a.length b.length

/-! ## Alignments -/

omit [DecidableEq α] in
inductive Aligns : List α → List α → Nat → Prop
  | nil : Aligns [] [] 0
  | keep (x : α) {a b : List α} {c : Nat} : Aligns a b c → Aligns (x :: a) (x :: b) c
  | change (x y : α) {a b : List α} {c : Nat} : Aligns a b c → Aligns (x :: a) (y :: b) (c + 1)
  | delete (x : α) {a b : List α} {c : Nat} : Aligns a b c → Aligns (x :: a) b (c + 1)
  | insert (y : α) {a b : List α} {c : Nat} : Aligns a b c → Aligns a (y :: b) (c + 1)
  | swap (x y : α) {a b : List α} {c : Nat} :
      Aligns a b c → Aligns (x :: y :: a) (y :: x :: b) (c + 1)

namespace Aligns

omit [DecidableEq α]

theorem append {a b a' b' : List α} {c c' : Nat} (first : Aligns a b c) (second : Aligns a' b' c') :
    Aligns (a ++ a') (b ++ b') (c + c') := by
  induction first with
  | nil => simpa using second
  | keep x _ ih => exact ih.keep x
  | change x y _ ih => simpa [Nat.add_right_comm] using ih.change x y
  | delete x _ ih => simpa [Nat.add_right_comm] using ih.delete x
  | insert y _ ih => simpa [Nat.add_right_comm] using ih.insert y
  | swap x y _ ih => simpa [Nat.add_right_comm] using ih.swap x y

theorem of_deletes (a : List α) : Aligns a [] a.length := by
  induction a with
  | nil => exact .nil
  | cons x a ih => exact ih.delete x

theorem of_inserts (b : List α) : Aligns [] b b.length := by
  induction b with
  | nil => exact .nil
  | cons y b ih => exact ih.insert y

theorem min {a b : List α} {c c' : Nat} (first : Aligns a b c) (second : Aligns a b c') :
    Aligns a b (min c c') := by
  rcases min_choice c c' with left | right
  · rwa [left]
  · rwa [right]

/-- **Front windows of aligned strings keep a common subsequence.** -/
theorem common {a b : List α} {c : Nat} (aligns : Aligns a b c) (p q : Nat) :
    ∃ s : List α, s.Sublist (a.take p) ∧ s.Sublist (b.take q) ∧
      (a.take p).length ≤ s.length + c + (p - q) ∧ (b.take q).length ≤ s.length + c + (q - p) := by
  -- an empty window keeps nothing, and the other one is their difference
  have empty {x y : List α} {c : Nat} {p q : Nat} (none : p = 0 ∨ q = 0) :
      ∃ s : List α, s.Sublist (x.take p) ∧ s.Sublist (y.take q) ∧
        (x.take p).length ≤ s.length + c + (p - q) ∧ (y.take q).length ≤ s.length + c + (q - p) := by
    refine ⟨[], List.nil_sublist _, List.nil_sublist _, ?_, ?_⟩
    · rw [List.length_take, List.length_nil]
      omega
    · rw [List.length_take, List.length_nil]
      omega
  induction aligns generalizing p q with
  | nil => exact ⟨[], List.nil_sublist _, List.nil_sublist _, by simp, by simp⟩
  | keep x _ ih =>
      rcases p with _ | p
      · exact empty (.inl rfl)
      rcases q with _ | q
      · exact empty (.inr rfl)
      obtain ⟨s, sub, sub', few, few'⟩ := ih p q
      refine ⟨x :: s, sub.cons_cons x, sub'.cons_cons x, ?_, ?_⟩ <;>
        simp only [List.take_succ_cons, List.length_cons] <;> omega
  | change x y _ ih =>
      rcases p with _ | p
      · exact empty (.inl rfl)
      rcases q with _ | q
      · exact empty (.inr rfl)
      obtain ⟨s, sub, sub', few, few'⟩ := ih p q
      refine ⟨s, sub.cons x, sub'.cons y, ?_, ?_⟩ <;>
        simp only [List.take_succ_cons, List.length_cons] <;> omega
  | delete x _ ih =>
      rcases p with _ | p
      · exact empty (.inl rfl)
      obtain ⟨s, sub, sub', few, few'⟩ := ih p q
      refine ⟨s, sub.cons x, sub', ?_, by omega⟩
      rw [List.take_succ_cons, List.length_cons]
      omega
  | insert y _ ih =>
      rcases q with _ | q
      · exact empty (.inr rfl)
      obtain ⟨s, sub, sub', few, few'⟩ := ih p q
      refine ⟨s, sub, sub'.cons y, by omega, ?_⟩
      rw [List.take_succ_cons, List.length_cons]
      omega
  | @swap x y a b c _ ih =>
      rcases p with _ | _ | p
      · exact empty (.inl rfl)
      · rcases q with _ | _ | q
        · exact empty (.inr rfl)
        · exact ⟨[], List.nil_sublist _, List.nil_sublist _, by simp, by simp⟩
        · refine ⟨[x], List.Sublist.refl _, (List.nil_sublist _).cons_cons x |>.cons y, ?_, ?_⟩
          · simp
          · simp only [List.take_succ_cons, List.length_cons, List.length_take, List.length_nil]
            omega
      · rcases q with _ | _ | q
        · exact empty (.inr rfl)
        · refine ⟨[y], (List.nil_sublist _).cons_cons y |>.cons x, List.Sublist.refl _, ?_, ?_⟩
          · simp only [List.take_succ_cons, List.length_cons, List.length_take, List.length_nil]
            omega
          · simp
        · obtain ⟨s, sub, sub', few, few'⟩ := ih p q
          refine ⟨x :: s, (sub.cons y).cons_cons x, (sub'.cons_cons x).cons y, ?_, ?_⟩ <;>
            simp only [List.take_succ_cons, List.length_cons] <;> omega

end Aligns

/-! ## The table -/

theorem osaAt_zero (a b : List α) (j : Nat) : osaAt a b 0 j = j := by rw [osaAt]

theorem osaAt_left (a b : List α) (i : Nat) : osaAt a b i 0 = i := by
  cases i with
  | zero => rw [osaAt]
  | succ i => rw [osaAt]

omit [DecidableEq α] in
theorem take_snoc {a : List α} {i : Nat} {x : α} (found : a[i]? = some x) :
    a.take (i + 1) = a.take i ++ [x] := by
  rw [List.take_add_one, found]
  rfl

/-- **The distance is the cost of an alignment.** -/
theorem osaAt_aligns (a b : List α) : ∀ n i j, i + j = n → i ≤ a.length → j ≤ b.length →
    Aligns (a.take i) (b.take j) (osaAt a b i j) := by
  intro n
  induction n using Nat.strong_induction_on with
  | _ n ih =>
      intro i j total i_le j_le
      rcases i with _ | i
      · have all : j = (b.take j).length := (List.length_take_of_le j_le).symm
        rw [osaAt_zero, List.take_zero]
        conv_rhs => rw [all]
        exact Aligns.of_inserts _
      rcases j with _ | j
      · have all : i + 1 = (a.take (i + 1)).length := (List.length_take_of_le i_le).symm
        rw [osaAt_left, List.take_zero]
        conv_rhs => rw [all]
        exact Aligns.of_deletes _
      obtain ⟨x, x_at⟩ : ∃ x, a[i]? = some x := ⟨_, List.getElem?_eq_getElem (by omega)⟩
      obtain ⟨y, y_at⟩ : ∃ y, b[j]? = some y := ⟨_, List.getElem?_eq_getElem (by omega)⟩
      have above := ih (i + (j + 1)) (by omega) i (j + 1) rfl (by omega) j_le
      have left := ih (i + 1 + j) (by omega) (i + 1) j rfl i_le (by omega)
      have diagonal := ih (i + j) (by omega) i j rfl (by omega) (by omega)
      have deleted : Aligns (a.take (i + 1)) (b.take (j + 1)) (osaAt a b i (j + 1) + 1) := by
        have := above.append (Aligns.nil.delete x)
        rwa [List.append_nil, ← take_snoc x_at] at this
      have inserted : Aligns (a.take (i + 1)) (b.take (j + 1)) (osaAt a b (i + 1) j + 1) := by
        have := left.append (Aligns.nil.insert y)
        rwa [List.append_nil, ← take_snoc y_at] at this
      have changed : Aligns (a.take (i + 1)) (b.take (j + 1))
          (osaAt a b i j + if a[i]? = b[j]? then 0 else 1) := by
        rw [take_snoc x_at, take_snoc y_at, x_at, y_at]
        split_ifs with same
        · cases same
          exact diagonal.append (Aligns.nil.keep x)
        · exact diagonal.append (Aligns.nil.change x y)
      have three := (deleted.min inserted).min changed
      rw [osaAt]
      by_cases swapped : 0 < i ∧ 0 < j ∧ a[i]? = b[j - 1]? ∧ a[i - 1]? = b[j]?
      · rw [if_pos swapped]
        refine three.min ?_
        obtain ⟨i_pos, j_pos, x_back, y_back⟩ := swapped
        obtain ⟨i, rfl⟩ : ∃ i', i = i' + 1 := ⟨i - 1, by omega⟩
        obtain ⟨j, rfl⟩ : ∃ j', j = j' + 1 := ⟨j - 1, by omega⟩
        rw [Nat.add_sub_cancel] at x_back y_back
        have both := (ih (i + j) (by omega) i j rfl (by omega) (by omega)).append (Aligns.nil.swap y x)
        have a_is : a.take (i + 1 + 1) = a.take i ++ [y, x] := by
          rw [take_snoc x_at, take_snoc (y_back.trans y_at), List.append_assoc]
          rfl
        have b_is : b.take (j + 1 + 1) = b.take j ++ [x, y] := by
          rw [take_snoc y_at, take_snoc (x_back.symm.trans x_at), List.append_assoc]
          rfl
        rwa [← a_is, ← b_is] at both
      · rw [if_neg swapped]
        exact three

theorem osa_aligns (a b : List α) : Aligns a b (osa a b) := by
  have := osaAt_aligns a b _ a.length b.length rfl le_rfl le_rfl
  rwa [List.take_length, List.take_length] at this

/-! ## No alignment is cheaper -/

/-- The table of longer strings begins with the table of their fronts. -/
theorem osaAt_append (a b x y : List α) : ∀ n i j, i + j = n → i ≤ a.length → j ≤ b.length →
    osaAt (a ++ x) (b ++ y) i j = osaAt a b i j := by
  intro n
  induction n using Nat.strong_induction_on with
  | _ n ih =>
      intro i j total i_le j_le
      rcases i with _ | i
      · rw [osaAt_zero, osaAt_zero]
      rcases j with _ | j
      · rw [osaAt_left, osaAt_left]
      have a_at : ∀ k, k < i + 1 → (a ++ x)[k]? = a[k]? := fun k less =>
        List.getElem?_append_left (by omega)
      have b_at : ∀ k, k < j + 1 → (b ++ y)[k]? = b[k]? := fun k less =>
        List.getElem?_append_left (by omega)
      rw [osaAt, osaAt, ih (i + (j + 1)) (by omega) i (j + 1) rfl (by omega) j_le,
        ih (i + 1 + j) (by omega) (i + 1) j rfl i_le (by omega),
        ih (i + j) (by omega) i j rfl (by omega) (by omega),
        ih (i - 1 + (j - 1)) (by omega) (i - 1) (j - 1) rfl (by omega) (by omega),
        a_at i (by omega), a_at (i - 1) (by omega), b_at j (by omega), b_at (j - 1) (by omega)]

theorem osaAt_fronts (a b x y : List α) :
    osaAt (a ++ x) (b ++ y) a.length b.length = osa a b :=
  osaAt_append a b x y _ a.length b.length rfl le_rfl le_rfl

/-- The three ways to reach a cell without a transposition. -/
theorem osaAt_succ_le (a b : List α) (i j : Nat) :
    osaAt a b (i + 1) (j + 1) ≤ osaAt a b i (j + 1) + 1 ∧
      osaAt a b (i + 1) (j + 1) ≤ osaAt a b (i + 1) j + 1 ∧
      osaAt a b (i + 1) (j + 1) ≤ osaAt a b i j + if a[i]? = b[j]? then 0 else 1 := by
  rw [osaAt]
  split_ifs <;> omega

theorem osa_snoc_delete (a b : List α) (x : α) : osa (a ++ [x]) b ≤ osa a b + 1 := by
  have fronts := osaAt_fronts a b [x] []
  rw [List.append_nil] at fronts
  rw [osa, List.length_append, List.length_singleton, ← fronts]
  cases b.length with
  | zero => rw [osaAt_left, osaAt_left]
  | succ j => exact (osaAt_succ_le (a ++ [x]) b a.length j).1

theorem osa_snoc_insert (a b : List α) (y : α) : osa a (b ++ [y]) ≤ osa a b + 1 := by
  have fronts := osaAt_fronts a b [] [y]
  rw [List.append_nil] at fronts
  rw [osa, List.length_append, List.length_singleton, ← fronts]
  cases a.length with
  | zero => rw [osaAt_zero, osaAt_zero]
  | succ i => exact (osaAt_succ_le a (b ++ [y]) i b.length).2.1

theorem osa_snoc_snoc (a b : List α) (x y : α) :
    osa (a ++ [x]) (b ++ [y]) ≤ osa a b + if x = y then 0 else 1 := by
  have diagonal := (osaAt_succ_le (a ++ [x]) (b ++ [y]) a.length b.length).2.2
  rw [osaAt_fronts, List.getElem?_concat_length, List.getElem?_concat_length] at diagonal
  simp only [Option.some.injEq] at diagonal
  rw [osa, List.length_append, List.length_append, List.length_singleton, List.length_singleton]
  exact diagonal

theorem osa_snoc_swap (a b : List α) (x y : α) :
    osa (a ++ [x, y]) (b ++ [y, x]) ≤ osa a b + 1 := by
  have x_at : (a ++ [x, y])[a.length]? = some x := by
    rw [List.getElem?_append_right le_rfl, Nat.sub_self]
    rfl
  have y_at : (a ++ [x, y])[a.length + 1]? = some y := by
    rw [List.getElem?_append_right (by omega), Nat.add_sub_cancel_left]
    rfl
  have y_at' : (b ++ [y, x])[b.length]? = some y := by
    rw [List.getElem?_append_right le_rfl, Nat.sub_self]
    rfl
  have x_at' : (b ++ [y, x])[b.length + 1]? = some x := by
    rw [List.getElem?_append_right (by omega), Nat.add_sub_cancel_left]
    rfl
  have swapped : 0 < a.length + 1 ∧ 0 < b.length + 1 ∧
      (a ++ [x, y])[a.length + 1]? = (b ++ [y, x])[b.length + 1 - 1]? ∧
      (a ++ [x, y])[a.length + 1 - 1]? = (b ++ [y, x])[b.length + 1]? := by
    rw [Nat.add_sub_cancel, Nat.add_sub_cancel, x_at, y_at, x_at', y_at']
    exact ⟨Nat.succ_pos _, Nat.succ_pos _, rfl, rfl⟩
  rw [osa, List.length_append, List.length_append]
  change osaAt (a ++ [x, y]) (b ++ [y, x]) (a.length + 1 + 1) (b.length + 1 + 1) ≤ _
  rw [osaAt, if_pos swapped, Nat.add_sub_cancel, Nat.add_sub_cancel, osaAt_fronts]
  exact min_le_right _ _

/-- **No alignment costs less than the distance**, whatever comes before it. -/
theorem Aligns.osa_append_le {a b : List α} {c : Nat} (aligns : Aligns a b c) (front front' : List α) :
    osa (front ++ a) (front' ++ b) ≤ osa front front' + c := by
  induction aligns generalizing front front' with
  | nil => simp
  | keep x _ ih =>
      have rest := ih (front ++ [x]) (front' ++ [x])
      have here := osa_snoc_snoc front front' x x
      rw [if_pos rfl] at here
      rw [List.append_assoc, List.append_assoc, List.singleton_append, List.singleton_append] at rest
      omega
  | change x y _ ih =>
      have rest := ih (front ++ [x]) (front' ++ [y])
      have here := osa_snoc_snoc front front' x y
      rw [List.append_assoc, List.append_assoc, List.singleton_append, List.singleton_append] at rest
      split_ifs at here <;> omega
  | delete x _ ih =>
      have rest := ih (front ++ [x]) front'
      have here := osa_snoc_delete front front' x
      rw [List.append_assoc, List.singleton_append] at rest
      omega
  | insert y _ ih =>
      have rest := ih front (front' ++ [y])
      have here := osa_snoc_insert front front' y
      rw [List.append_assoc, List.singleton_append] at rest
      omega
  | swap x y _ ih =>
      have rest := ih (front ++ [x, y]) (front' ++ [y, x])
      have here := osa_snoc_swap front front' x y
      rw [List.append_assoc, List.append_assoc] at rest
      simp only [List.cons_append, List.nil_append] at rest
      omega

/-- **The distance is the least cost of an alignment.** -/
theorem osa_le_iff {a b : List α} {c : Nat} : osa a b ≤ c ↔ ∃ c' ≤ c, Aligns a b c' := by
  constructor
  · intro close
    exact ⟨osa a b, close, osa_aligns a b⟩
  · rintro ⟨c', le, aligns⟩
    have whole := aligns.osa_append_le [] []
    have none : osa ([] : List α) [] = 0 := osaAt_zero [] [] 0
    rw [List.nil_append, List.nil_append, none, Nat.zero_add] at whole
    exact whole.trans le

omit [DecidableEq α] in
/-- The distance is at least the difference of the lengths. -/
theorem Aligns.length_le {a b : List α} {c : Nat} (aligns : Aligns a b c) :
    a.length ≤ b.length + c ∧ b.length ≤ a.length + c := by
  induction aligns <;> simp only [List.length_cons, List.length_nil] <;> omega

/-! ## Rows above a bound -/

theorem osaAt_le_above (a b : List α) (i j : Nat) : osaAt a b (i + 1) j ≤ osaAt a b i j + 1 := by
  rcases j with _ | j
  · rw [osaAt_left, osaAt_left]
  · rw [osaAt]
    have first : min (min (osaAt a b i (j + 1) + 1) (osaAt a b (i + 1) j + 1))
        (osaAt a b i j + if a[i]? = b[j]? then 0 else 1) ≤ osaAt a b i (j + 1) + 1 :=
      (min_le_left _ _).trans (min_le_left _ _)
    by_cases swapped : 0 < i ∧ 0 < j ∧ a[i]? = b[j - 1]? ∧ a[i - 1]? = b[j]?
    · rw [if_pos swapped]
      exact (min_le_left _ _).trans first
    · rw [if_neg swapped]
      exact first

/-- **Where a whole row is above a bound, the rest of the table is.** -/
theorem osaAt_gt_of_row {a b : List α} {bound i m : Nat}
    (above : ∀ j, j ≤ m → bound < osaAt a b i j) (d : Nat) :
    ∀ j, j ≤ m → bound < osaAt a b (i + d) j := by
  induction d using Nat.strong_induction_on with
  | _ d ih =>
      rcases d with _ | d
      · exact above
      have row := ih d (by omega)
      intro j
      induction j with
      | zero =>
          intro _
          have := row 0 (Nat.zero_le m)
          rw [osaAt_left] at this ⊢
          omega
      | succ j left =>
          intro j_le
          have left := left (by omega)
          have up := row (j + 1) j_le
          have diagonal := row j (by omega)
          rw [← Nat.add_assoc] at left ⊢
          have three : bound < min (min (osaAt a b (i + d) (j + 1) + 1) (osaAt a b (i + d + 1) j + 1))
              (osaAt a b (i + d) j + if a[i + d]? = b[j]? then 0 else 1) := by
            rw [lt_min_iff, lt_min_iff]
            exact ⟨⟨by omega, by omega⟩, by omega⟩
          rw [osaAt]
          by_cases swapped : 0 < i + d ∧ 0 < j ∧ a[i + d]? = b[j - 1]? ∧ a[i + d - 1]? = b[j]?
          · rw [if_pos swapped]
            have last := osaAt_le_above a b (i + d - 1) (j - 1)
            have here := row (j - 1) (by omega)
            rw [Nat.sub_add_cancel swapped.1] at last
            exact lt_min three (by omega)
          · rw [if_neg swapped]
            exact three

end HybridSearch.Theory.Osa
