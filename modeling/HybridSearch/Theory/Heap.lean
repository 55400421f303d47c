/-
# Theory.Heap -- binary heaps in a list, and what a standard library promises about them

`IsHeap comp l`: no element comes before its children, in the sense of `comp`, so that the
front is the last of all (`IsHeap.front`).  The functions on heaps are known by what they
promise (`Algorithms.Spec`); how they arrange a heap is their own business.
-/
import HybridSearch.Theory.BestK

namespace HybridSearch.Theory.Heap

set_option autoImplicit false

variable {α : Type} (comp : α → α → Prop)

/-- No element is before one of its children. -/
def IsHeap (l : List α) : Prop :=
  ∀ (i : Nat) (below : i < l.length), 0 < i → ¬comp (l.get ⟨(i - 1) / 2, by omega⟩) (l.get ⟨i, below⟩)

/-- `push_heap`, `pop_heap` and `sort` of a whole list. -/
structure Algorithms (α : Type) where
  pushHeap : List α → List α
  popHeap : List α → List α
  sort : List α → List α

/-- What is promised of them. -/
structure Algorithms.Spec (std : Algorithms α) : Prop where
  /-- The last element joins the heap before it. -/
  push : ∀ (l : List α) (c : α), IsHeap comp l →
    IsHeap comp (std.pushHeap (l ++ [c])) ∧ (std.pushHeap (l ++ [c])).Perm (l ++ [c])
  /-- The front moves to the back, the others are a heap. -/
  pop : ∀ (a : α) (l : List α), IsHeap comp (a :: l) →
    ∃ rest, std.popHeap (a :: l) = rest ++ [a] ∧ IsHeap comp rest ∧ rest.Perm l
  sort : ∀ l : List α, (std.sort l).Perm l ∧ (std.sort l).Pairwise fun a b => ¬comp b a

variable {comp}

theorem isHeap_nil : IsHeap comp [] := fun _ below => absurd below (Nat.not_lt_zero _)

/-- A list sorted the other way round is a heap. -/
theorem isHeap_of_pairwise {l : List α} (sorted : l.Pairwise fun a b => ¬comp a b) : IsHeap comp l := by
  intro i below positive
  exact List.pairwise_iff_get.mp sorted ⟨(i - 1) / 2, by omega⟩ ⟨i, below⟩
    (by change (i - 1) / 2 < i; omega)

/-- **The front of a heap** is before no element of it. -/
theorem IsHeap.front {a : α} {l : List α} (heap : IsHeap comp (a :: l)) (irrefl : ∀ x, ¬comp x x)
    (chain : ∀ x y z, ¬comp x y → ¬comp y z → ¬comp x z) {x : α} (mem : x ∈ a :: l) : ¬comp a x := by
  obtain ⟨⟨i, below⟩, rfl⟩ := List.mem_iff_get.mp mem
  -- up the parents
  induction i using Nat.strongRecOn with
  | ind i ih =>
      rcases Nat.eq_zero_or_pos i with rfl | positive
      · exact irrefl a
      · have up := ih ((i - 1) / 2) (by omega) (by omega) (List.get_mem _ _)
        exact chain _ _ _ up (heap i below positive)

/-- Functions that keep a heap sorted, the last of all first. -/
def bySorting (le : α → α → Bool) : Algorithms α where
  pushHeap l := (l.mergeSort le).reverse
  popHeap l := (l.tail.mergeSort le).reverse ++ l.head?.toList
  sort l := l.mergeSort le

theorem bySorting_spec {le : α → α → Bool} (linear : BestK.Linear le) :
    (bySorting le).Spec fun a b => ¬le b a = true := by
  have heap (l : List α) : IsHeap (fun a b => ¬le b a = true) (l.mergeSort le).reverse := by
    refine isHeap_of_pairwise (List.pairwise_reverse.mpr ?_)
    exact (BestK.sorted linear l).imp fun ordered => not_not.mpr ordered
  have perm (l : List α) : (l.mergeSort le).reverse.Perm l :=
    (List.reverse_perm _).trans (List.mergeSort_perm l le)
  constructor
  · exact fun l c _ => ⟨heap _, perm _⟩
  · exact fun a l _ => ⟨_, rfl, heap l, perm l⟩
  · exact fun l => ⟨List.mergeSort_perm l le, (BestK.sorted linear l).imp fun ordered => not_not.mpr ordered⟩

end HybridSearch.Theory.Heap
