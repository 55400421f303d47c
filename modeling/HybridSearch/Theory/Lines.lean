/-
# Theory.Lines -- terminated lines, and lists without their trailing blanks

`unlines` ends every line with the terminator, and `split` takes a string apart
into its terminated lines and what follows the last of them.  The two are
inverse to each other on lines that hold no terminator.  `trimEnd` drops the
trailing elements a list has of one kind.
-/
import Mathlib.Data.List.Basic
import Mathlib.Data.List.DropRight
import Mathlib.Data.List.Count

namespace HybridSearch.Theory.Lines

set_option autoImplicit false

variable {α : Type} [DecidableEq α] (nl : α)

def unlines (ls : List (List α)) : List α := ls.flatMap (· ++ [nl])

/-- The terminated lines of a string, and its unterminated tail. -/
def split : List α → List (List α) × List α
  | [] => ([], [])
  | b :: rest =>
      if b = nl then ([] :: (split rest).1, (split rest).2)
      else
        match (split rest).1 with
        | [] => ([], b :: (split rest).2)
        | l :: ls => ((b :: l) :: ls, (split rest).2)

variable {nl}

omit [DecidableEq α] in
theorem unlines_nil : unlines nl [] = [] := rfl

omit [DecidableEq α] in
theorem unlines_cons (l : List α) (ls : List (List α)) :
    unlines nl (l :: ls) = l ++ nl :: unlines nl ls := by
  simp [unlines]

omit [DecidableEq α] in
theorem unlines_append (front back : List (List α)) :
    unlines nl (front ++ back) = unlines nl front ++ unlines nl back := List.flatMap_append

/-- **The lines and the tail make up the string.** -/
theorem unlines_split (s : List α) : unlines nl (split nl s).1 ++ (split nl s).2 = s := by
  induction s with
  | nil => rfl
  | cons b rest ih =>
      rw [split]
      split_ifs with isNl
      · rw [unlines_cons, isNl, List.nil_append, List.cons_append, ih]
      · cases lines_eq : (split nl rest).1 with
        | nil =>
            rw [lines_eq, unlines_nil, List.nil_append] at ih
            simp only [unlines_nil, List.nil_append, ih]
        | cons l ls =>
            rw [lines_eq, unlines_cons] at ih
            simp only [unlines_cons, List.cons_append, List.cons.injEq, true_and]
            exact ih

/-- Neither the lines nor the tail hold a terminator. -/
theorem split_free (s : List α) : (∀ l ∈ (split nl s).1, nl ∉ l) ∧ nl ∉ (split nl s).2 := by
  induction s with
  | nil => simp [split]
  | cons b rest ih =>
      rw [split]
      split_ifs with isNl
      · refine ⟨fun l mem => ?_, ih.2⟩
        rcases List.mem_cons.mp mem with rfl | mem
        · exact List.not_mem_nil
        · exact ih.1 l mem
      · cases lines_eq : (split nl rest).1 with
        | nil => simpa [Ne.symm isNl] using ih.2
        | cons l ls =>
            rw [lines_eq] at ih
            refine ⟨fun m mem => ?_, ih.2⟩
            rcases List.mem_cons.mp mem with rfl | mem
            · simpa [Ne.symm isNl] using ih.1 l List.mem_cons_self
            · exact ih.1 m (List.mem_cons_of_mem _ mem)

theorem split_of_free {s : List α} (free : nl ∉ s) : split nl s = ([], s) := by
  induction s with
  | nil => rfl
  | cons b rest ih =>
      rw [List.mem_cons, not_or] at free
      rw [split, if_neg (Ne.symm free.1), ih free.2]

theorem split_line {l : List α} (free : nl ∉ l) (s : List α) :
    split nl (l ++ nl :: s) = (l :: (split nl s).1, (split nl s).2) := by
  induction l with
  | nil => rw [List.nil_append, split, if_pos rfl]
  | cons b rest ih =>
      rw [List.mem_cons, not_or] at free
      rw [List.cons_append, split, if_neg (Ne.symm free.1), ih free.2]

/-- **Splitting takes lines apart as they were put together.** -/
theorem split_unlines {ls : List (List α)} {s : List α} (free : ∀ l ∈ ls, nl ∉ l) :
    split nl (unlines nl ls ++ s) = (ls ++ (split nl s).1, (split nl s).2) := by
  induction ls with
  | nil => rfl
  | cons l ls ih =>
      rw [unlines_cons, List.append_assoc, List.cons_append,
        split_line (free l List.mem_cons_self), ih fun m mem => free m (List.mem_cons_of_mem _ mem)]
      rfl

/-- Lines are counted by their terminators. -/
theorem count_unlines {ls : List (List α)} (free : ∀ l ∈ ls, nl ∉ l) :
    (unlines nl ls).count nl = ls.length := by
  induction ls with
  | nil => rfl
  | cons l ls ih =>
      rw [unlines_cons, List.count_append, List.count_eq_zero_of_not_mem (free l List.mem_cons_self),
        List.count_cons_self, ih fun m mem => free m (List.mem_cons_of_mem _ mem), List.length_cons,
        Nat.zero_add]

/-! ## Trailing blanks -/

section Trim

variable {β : Type} (blank : β → Bool)

/-- The list without its trailing blanks. -/
def trimEnd (xs : List β) : List β := xs.rdropWhile blank

variable {blank}

theorem trimEnd_front (xs : List β) : trimEnd blank xs <+: xs := List.rdropWhile_prefix _ _

theorem trimEnd_of_all {xs : List β} (all : ∀ x ∈ xs, blank x) : trimEnd blank xs = [] :=
  List.rdropWhile_eq_nil_iff.mpr all

theorem trimEnd_of_none {xs : List β} (solid : ∀ x ∈ xs, ¬ blank x) : trimEnd blank xs = xs := by
  rcases List.eq_nil_or_concat' xs with rfl | ⟨front, x, rfl⟩
  · rfl
  · exact List.rdropWhile_concat_neg _ _ _ (solid x (by simp))

theorem trimEnd_append_all {xs ys : List β} (all : ∀ y ∈ ys, blank y) :
    trimEnd blank (xs ++ ys) = trimEnd blank xs := by
  induction ys using List.reverseRecOn with
  | nil => rw [List.append_nil]
  | append_singleton ys y ih =>
      rw [← List.append_assoc, trimEnd, List.rdropWhile_concat_pos _ _ _ (all y (by simp))]
      exact ih fun z mem => all z (List.mem_append_left _ mem)

theorem trimEnd_append_of_some {xs ys : List β} (filled : ∃ y ∈ ys, ¬ blank y) :
    trimEnd blank (xs ++ ys) = xs ++ trimEnd blank ys := by
  induction ys using List.reverseRecOn with
  | nil =>
      obtain ⟨y, mem, -⟩ := filled
      cases mem
  | append_singleton ys y ih =>
      by_cases last : blank y
      · rw [← List.append_assoc, trimEnd, List.rdropWhile_concat_pos _ _ _ last, trimEnd,
          List.rdropWhile_concat_pos _ _ _ last]
        refine ih ?_
        obtain ⟨z, mem, not⟩ := filled
        rcases List.mem_append.mp mem with front | back
        · exact ⟨z, front, not⟩
        · rw [List.mem_singleton.mp back] at not
          exact absurd last not
      · rw [← List.append_assoc, trimEnd, List.rdropWhile_concat_neg _ _ _ last, trimEnd,
          List.rdropWhile_concat_neg _ _ _ last, List.append_assoc]

theorem trimEnd_last {xs front : List β} {x : β} (whole : trimEnd blank xs = front ++ [x]) :
    ¬ blank x := by
  induction xs using List.reverseRecOn with
  | nil => simp [trimEnd] at whole
  | append_singleton xs y ih =>
      by_cases last : blank y
      · rw [trimEnd, List.rdropWhile_concat_pos _ _ _ last] at whole
        exact ih whole
      · rw [trimEnd, List.rdropWhile_concat_neg _ _ _ last] at whole
        have same : y = x := by simpa using (List.append_inj' whole rfl).2
        rwa [← same]

/-- What is trimmed off is blank. -/
theorem exists_trimmed (xs : List β) : ∃ tail, xs = trimEnd blank xs ++ tail ∧ ∀ x ∈ tail, blank x := by
  induction xs using List.reverseRecOn with
  | nil => exact ⟨[], rfl, by simp⟩
  | append_singleton xs x ih =>
      by_cases last : blank x
      · obtain ⟨tail, whole, all⟩ := ih
        refine ⟨tail ++ [x], ?_, ?_⟩
        · rw [trimEnd, List.rdropWhile_concat_pos _ _ _ last, ← List.append_assoc]
          exact congrArg (· ++ [x]) whole
        · intro y mem
          rcases List.mem_append.mp mem with front | back
          · exact all y front
          · rw [List.mem_singleton.mp back]
            exact last
      · refine ⟨[], ?_, by simp⟩
        rw [trimEnd, List.rdropWhile_concat_neg _ _ _ last, List.append_nil]

/-- What is not blank is kept. -/
theorem mem_trimEnd {xs : List β} {x : β} (mem : x ∈ xs) (solid : ¬ blank x) : x ∈ trimEnd blank xs := by
  obtain ⟨tail, split, all⟩ := @exists_trimmed _ blank xs
  rw [split] at mem
  exact (List.mem_append.mp mem).resolve_right fun mem => solid (all x mem)

end Trim

end HybridSearch.Theory.Lines
