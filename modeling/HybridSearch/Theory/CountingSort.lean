/-
# Theory.CountingSort -- sorting by a small key in three passes

`count` tallies the keys one place up, `starts` turns the tallies into start
positions, `scatter` writes every element at the next position of its key.  The
array between `starts k` and `starts (k + 1)` then holds exactly the elements of
key `k`, in their original order (`bucket_scatter`).

Arrays are functions of the index; elements the passes do not write keep the
default value.
-/
import Mathlib.Data.List.Range
import Mathlib.Logic.Function.Basic

namespace HybridSearch.Theory.CountingSort

set_option autoImplicit false

variable {α : Type} (key : α → Nat)

def count (xs : List α) : Nat → Nat :=
  xs.foldl (fun start x => Function.update start (key x + 1) (start (key x + 1) + 1)) fun _ => 0

def starts (xs : List α) (m : Nat) : Nat → Nat :=
  (List.range m).foldl (fun start k => Function.update start (k + 1) (start (k + 1) + start k))
    (count key xs)

/-- Write one element at the next position of its key. -/
def scatterStep (s : (Nat → Nat) × (Nat → α)) (x : α) : (Nat → Nat) × (Nat → α) :=
  (Function.update s.1 (key x) (s.1 (key x) + 1), Function.update s.2 (s.1 (key x)) x)

def scatter [Inhabited α] (xs : List α) (start : Nat → Nat) : Nat → α :=
  (xs.foldl (scatterStep key) (start, fun _ => default)).2

/-- The elements of one key, in their order. -/
def bucket (xs : List α) (k : Nat) : List α := xs.filter fun x => key x = k

/-- How many elements have a smaller key. -/
def below (xs : List α) (k : Nat) : Nat := xs.countP fun x => decide (key x < k)

variable {key}

theorem count_zero (xs : List α) : count key xs 0 = 0 := by
  induction xs using List.reverseRecOn with
  | nil => rfl
  | append_singleton xs x ih =>
      rw [count, List.foldl_append, List.foldl_cons, List.foldl_nil,
        Function.update_of_ne (Nat.zero_ne_add_one _)]
      exact ih

theorem count_succ (xs : List α) (k : Nat) : count key xs (k + 1) = (bucket key xs k).length := by
  induction xs using List.reverseRecOn with
  | nil => rfl
  | append_singleton xs x ih =>
      rw [count, List.foldl_append, List.foldl_cons, List.foldl_nil]
      rw [count] at ih
      by_cases same : key x = k
      · rw [same, Function.update_self, ih]
        simp [bucket, List.filter_append, same]
      · rw [Function.update_of_ne (by omega), ih]
        simp [bucket, List.filter_append, same]

theorem below_succ (xs : List α) (k : Nat) :
    below key xs (k + 1) = below key xs k + (bucket key xs k).length := by
  induction xs with
  | nil => rfl
  | cons x xs ih =>
      simp only [below, bucket, List.countP_cons, List.filter_cons, decide_eq_true_eq] at ih ⊢
      rw [ih]
      rcases Nat.lt_trichotomy (key x) k with less | same | more
      · rw [if_pos less, if_pos (show key x < k + 1 by omega), if_neg (show ¬ key x = k by omega)]
        omega
      · rw [if_neg (show ¬ key x < k by omega), if_pos (show key x < k + 1 by omega), if_pos same,
          List.length_cons]
        omega
      · rw [if_neg (show ¬ key x < k by omega), if_neg (show ¬ key x < k + 1 by omega),
          if_neg (show ¬ key x = k by omega)]
        omega

theorem below_mono (xs : List α) {j k : Nat} (le : j ≤ k) : below key xs j ≤ below key xs k := by
  refine List.countP_mono_left fun x _ less => ?_
  simp only [decide_eq_true_eq] at less ⊢
  omega

/-- The prefix sums of the tallies count the smaller keys. -/
theorem starts_eq (xs : List α) {m k : Nat} (inside : k ≤ m) :
    starts key xs m k = below key xs k := by
  -- the loop up to `m` has summed every place up to `m` and left those above as they were
  have loop : ∀ m, (∀ k ≤ m, starts key xs m k = below key xs k) ∧
      ∀ k > m, starts key xs m k = count key xs k := by
    intro m
    induction m with
    | zero =>
        refine ⟨fun k le => ?_, fun k _ => rfl⟩
        obtain rfl : k = 0 := by omega
        rw [starts, List.range_zero, List.foldl_nil, count_zero, below]
        simp
    | succ m ih =>
        obtain ⟨summed, rest⟩ := ih
        have step : starts key xs (m + 1) =
            Function.update (starts key xs m) (m + 1)
              (starts key xs m (m + 1) + starts key xs m m) := by
          rw [starts, List.range_succ, List.foldl_append]
          rfl
        rw [step]
        refine ⟨fun k le => ?_, fun k more => ?_⟩
        · by_cases last : k = m + 1
          · subst last
            rw [Function.update_self, rest _ (by omega), summed m le_rfl, count_succ, below_succ]
            omega
          · rw [Function.update_of_ne last]
            exact summed k (by omega)
        · rw [Function.update_of_ne (by omega)]
          exact rest k (by omega)
  exact (loop m).1 k inside

theorem bucket_snoc (xs : List α) (x : α) (k : Nat) :
    bucket key (xs ++ [x]) k = bucket key xs k ++ if key x = k then [x] else [] := by
  simp only [bucket, List.filter_append, List.filter_cons, List.filter_nil, decide_eq_true_eq]

/-- The state of the scatter loop after the elements `front` of `xs`: the next
position of every key, and the part of its interval already written. -/
structure Scattered (key : α → Nat) (xs : List α) (m : Nat) (front : List α)
    (s : (Nat → Nat) × (Nat → α)) : Prop where
  position : ∀ k < m, s.1 k = below key xs k + (bucket key front k).length
  written : ∀ k < m,
    (List.range' (below key xs k) (bucket key front k).length).map s.2 = bucket key front k

theorem Scattered.step {xs front rest : List α} {x : α} {m : Nat} {s : (Nat → Nat) × (Nat → α)}
    (whole : xs = front ++ x :: rest) (known : key x < m) (done : Scattered key xs m front s) :
    Scattered key xs m (front ++ [x]) (scatterStep key s x) := by
  -- a bucket only grows, so it stays within its own interval
  have room : ∀ k, (bucket key front k ++ if key x = k then [x] else []).length ≤
      (bucket key xs k).length := by
    intro k
    rw [← bucket_snoc, whole, show front ++ x :: rest = front ++ [x] ++ rest by simp, bucket, bucket,
      List.filter_append _ rest, List.length_append]
    exact Nat.le_add_right _ _
  have place := done.position _ known
  have roomX := room (key x)
  have nextX : below key xs (key x + 1) = below key xs (key x) + (bucket key xs (key x)).length :=
    below_succ xs (key x)
  rw [if_pos rfl, List.length_append, List.length_singleton] at roomX
  constructor
  · intro k less
    rw [bucket_snoc]
    by_cases same : key x = k
    · subst same
      simp only [scatterStep, Function.update_self, if_true, List.length_append,
        List.length_singleton, place]
      omega
    · simp only [scatterStep, Function.update_of_ne (Ne.symm same), if_neg same, List.append_nil]
      exact done.position k less
  · intro k less
    rw [bucket_snoc]
    by_cases same : key x = k
    · subst same
      rw [if_pos rfl, List.length_append, List.length_singleton, List.range'_concat,
        List.map_append, List.map_singleton, Nat.one_mul, ← place]
      simp only [scatterStep, Function.update_self]
      congr 1
      conv_rhs => rw [← done.written _ less]
      refine List.map_congr_left fun i mem => ?_
      have := List.mem_range'_1.mp mem
      exact Function.update_of_ne (by omega) _ _
    · rw [if_neg same, List.append_nil]
      conv_rhs => rw [← done.written k less]
      refine List.map_congr_left fun i mem => ?_
      have between := List.mem_range'_1.mp mem
      have roomK := room k
      have nextK : below key xs (k + 1) = below key xs k + (bucket key xs k).length := below_succ xs k
      rw [if_neg same, List.append_nil] at roomK
      refine Function.update_of_ne ?_ _ _
      -- the position written lies in the interval of another key
      rcases Nat.lt_or_gt_of_ne same with smaller | larger
      · have : below key xs (key x + 1) ≤ below key xs k := below_mono xs (by omega)
        omega
      · have : below key xs (k + 1) ≤ below key xs (key x) := below_mono xs (by omega)
        omega

/-- **The counting sort is a stable partition by key.** -/
theorem bucket_scatter [Inhabited α] {xs : List α} {m k : Nat} (known : ∀ x ∈ xs, key x < m)
    (inside : k < m) :
    (List.range' (starts key xs m k) (starts key xs m (k + 1) - starts key xs m k)).map
      (scatter key xs (starts key xs m)) = bucket key xs k := by
  have loop : ∀ front rest, xs = front ++ rest →
      Scattered key xs m front
        (front.foldl (scatterStep key) (starts key xs m, fun _ => default)) := by
    intro front
    induction front using List.reverseRecOn with
    | nil =>
        intro rest _
        constructor
        · intro k less
          simp [bucket, starts_eq xs (Nat.le_of_lt less)]
        · intro k _
          simp [bucket]
    | append_singleton front x ih =>
        intro rest whole
        rw [List.append_assoc, List.singleton_append] at whole
        rw [List.foldl_append]
        exact (ih (x :: rest) whole).step whole (known x (by rw [whole]; simp))
  have size : starts key xs m (k + 1) - starts key xs m k = (bucket key xs k).length := by
    rw [starts_eq xs (by omega), starts_eq xs (by omega), below_succ]
    omega
  rw [size, starts_eq xs (by omega)]
  exact (loop xs [] (List.append_nil xs).symm).written k inside

end HybridSearch.Theory.CountingSort
