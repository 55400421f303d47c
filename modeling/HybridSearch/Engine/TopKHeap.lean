/-
# Engine.TopKHeap -- bounded top-k over its heap (topk.hpp)

`TopK` with its vector and the functions of the standard library, for any scores with a
total order and a least one.  The heap is ordered by `ranks_before`, so its front is the
worst of what is kept.

`Holds t k l`: after the pushes `l` the heap holds the best `k` of them, in whatever
arrangement.  Everything the class returns follows from it (`push_holds`).

`Engine.TopK`, which the searches run on, keeps a sorted list in its place; both do the
same at every push (`Arranges.push_eq`, `pushAll_eq`).
-/
import HybridSearch.Engine.Machine
import HybridSearch.Engine.TopK
import HybridSearch.Theory.Heap
import Mathlib.Data.List.Nodup
import Mathlib.Order.BoundedOrder.Basic

namespace HybridSearch.Engine

open HybridSearch.Theory

set_option autoImplicit false

/-- `TopK`: its bound and its heap. -/
structure HeapTopK (σ : Type) where
  k : Nat
  heap : List (Scored σ)

namespace HeapTopK

variable {σ : Type}

def empty (k : Nat) : HeapTopK σ := ⟨k, []⟩

def full (t : HeapTopK σ) : Bool := decide (t.k ≤ t.heap.length)

variable [LinearOrder σ] (std : Heap.Algorithms (Scored σ))

/-- `threshold`; the front of an empty heap is undefined. -/
def threshold [OrderBot σ] (t : HeapTopK σ) : Except Fault σ :=
  if t.full then
    match t.heap with
    | [] => .error .undefined
    | worst :: _ => .ok worst.score
  else .ok ⊥

/-- `push`: whether the candidate was admitted, and the heap with it. -/
def push (t : HeapTopK σ) (doc : Nat) (score : σ) : Except Fault (Bool × HeapTopK σ) :=
  if t.k = 0 then .ok (false, t)
  else if ¬t.full then .ok (true, { t with heap := std.pushHeap (t.heap ++ [⟨doc, score⟩]) })
  else
    match t.heap with
    | [] => .error .undefined
    | worst :: _ =>
        if ¬Scored.ranksBefore ⟨doc, score⟩ worst then .ok (false, t)
        else
          -- `heap_.back() = c`
          .ok (true, { t with heap := std.pushHeap ((std.popHeap t.heap).dropLast ++ [⟨doc, score⟩]) })

def takeSorted (t : HeapTopK σ) : List (Scored σ) := std.sort t.heap

/-- The pushes of a list, in its order. -/
def pushAll (k : Nat) (l : List (Scored σ)) : Except Fault (HeapTopK σ) :=
  l.foldlM (fun t c => Prod.snd <$> t.push std c.doc c.score) (empty k)

end HeapTopK

namespace Scored

variable {σ : Type} [LinearOrder σ] {a b : Scored σ}

theorem bySorting_spec : (Heap.bySorting (ranksLe (σ := σ))).Spec ranksBefore := by
  have same : (fun a b : Scored σ => ¬ranksLe b a = true) = ranksBefore :=
    funext fun a => funext fun b => propext (not_iff_comm.mp ranksLe_iff.symm)
  exact same ▸ Heap.bySorting_spec ranksLe_linear

/-- The worst of a heap of candidates is its front. -/
theorem front_worst {l : List (Scored σ)} (heap : Heap.IsHeap ranksBefore (a :: l)) (mem : b ∈ a :: l) :
    ranksLe b a = true := by
  refine ranksLe_iff.mpr (heap.front (fun x => ?_) (fun x y z first second => ?_) mem)
  · exact ranksLe_iff.mp (or_self_iff.mp ((Bool.or_eq_true ..).mp (ranksLe_linear.total x x)))
  · exact ranksLe_iff.mp (ranksLe_linear.trans z y x (ranksLe_iff.mpr second) (ranksLe_iff.mpr first))

end Scored

/-! ## What the heap holds -/

namespace HeapTopK

variable {σ : Type} [LinearOrder σ] {std : Heap.Algorithms (Scored σ)}

/-- After the pushes `l` the heap holds the best `k` of them. -/
structure Holds (t : HeapTopK σ) (k : Nat) (l : List (Scored σ)) : Prop where
  bound : t.k = k
  heap : Heap.IsHeap Scored.ranksBefore t.heap
  best : t.heap.Perm (BestK.best Scored.ranksLe k l)

theorem holds_empty (k : Nat) : (empty k : HeapTopK σ).Holds k [] where
  bound := rfl
  heap := Heap.isHeap_nil
  best := by simp [empty, BestK.best]

namespace Holds

variable {t : HeapTopK σ} {k : Nat} {l : List (Scored σ)} (holds : t.Holds k l)

include holds

theorem length_eq : t.heap.length = min k l.length := by
  rw [holds.best.length_eq, BestK.best, List.length_take, List.length_mergeSort]

theorem full_iff : t.full = true ↔ k ≤ l.length := by
  rw [full, decide_eq_true_eq, holds.bound, holds.length_eq]
  omega

theorem known {c : Scored σ} (mem : c ∈ t.heap) : c ∈ l :=
  BestK.mem_of_mem_best (holds.best.mem_iff.mp mem)

/-- **The front of a full heap** is the worst of the best, the `k`-th. -/
theorem front_eq (full : k ≤ l.length) {worst : Scored σ} {rest : List (Scored σ)}
    (front : t.heap = worst :: rest) : (l.mergeSort Scored.ranksLe)[k - 1]? = some worst := by
  have heap := holds.heap
  have best := holds.best
  have length := holds.length_eq
  rw [front] at heap best length
  rw [List.length_cons, Nat.min_eq_left full] at length
  subst length
  have last : BestK.best Scored.ranksLe (rest.length + 1) l = rest.mergeSort Scored.ranksLe ++ [worst] := by
    have sorted := (BestK.sorted Scored.ranksLe_linear l).sublist (List.take_sublist (rest.length + 1) _)
    refine List.Perm.eq_of_pairwise (fun a b _ _ => Scored.ranksLe_linear.antisymm a b) sorted ?_ ?_
    · refine List.pairwise_append.mpr ⟨BestK.sorted Scored.ranksLe_linear rest,
        List.pairwise_singleton _ _, fun x mem y only => ?_⟩
      rw [List.mem_singleton.mp only]
      exact Scored.front_worst heap
        (List.mem_cons_of_mem _ ((List.mergeSort_perm _ _).mem_iff.mp mem))
    · calc (BestK.best Scored.ranksLe (rest.length + 1) l).Perm (worst :: rest) := best.symm
        _ |>.Perm (worst :: rest.mergeSort Scored.ranksLe) := (List.mergeSort_perm _ _).symm.cons _
        _ |>.Perm _ := (List.perm_append_singleton _ _).symm
  have entry := congrArg (fun m : List (Scored σ) => m[rest.length]?) last
  have place : rest.length = (rest.mergeSort Scored.ranksLe).length := (List.length_mergeSort rest).symm
  rw [BestK.best, List.getElem?_take_of_lt (Nat.lt_succ_self _), place, List.getElem?_concat_length,
    ← place] at entry
  exact entry

variable {c : Scored σ} (spec : std.Spec Scored.ranksBefore) (new : (l ++ [c]).Nodup)

include spec new

/-- **One push**: it says whether the candidate is among the best, and keeps the best. -/
theorem push_holds : ∃ t', t.push std c.doc c.score =
    .ok (decide (c ∈ BestK.best Scored.ranksLe k (l ++ [c])), t') ∧ t'.Holds k (l ++ [c]) := by
  obtain ⟨nodup, -, apart⟩ := List.nodup_append.mp new
  have fresh : c ∉ t.heap := fun mem => apart c (holds.known mem) c (List.mem_singleton_self c) rfl
  have again : BestK.best Scored.ranksLe k (t.heap ++ [c]) = BestK.best Scored.ranksLe k (l ++ [c]) := by
    rw [BestK.best_perm Scored.ranksLe_linear k (holds.best.append_right [c])]
    exact BestK.best_append Scored.ranksLe_linear k new
  rw [← again, push, holds.bound]
  by_cases none_kept : k = 0
  · have nothing : BestK.best Scored.ranksLe k (t.heap ++ [c]) = [] := by
      rw [none_kept]
      exact List.take_zero
    rw [if_pos none_kept, nothing]
    refine ⟨t, rfl, holds.bound, holds.heap, ?_⟩
    have length := holds.length_eq
    rw [none_kept, Nat.zero_min] at length
    rw [← again, nothing, List.length_eq_zero_iff.mp length]
  rw [if_neg none_kept]
  have length := holds.length_eq
  by_cases full : t.full = true
  · rw [if_neg (not_not.mpr full)]
    have long := holds.full_iff.mp full
    rw [Nat.min_eq_left long] at length
    cases front : t.heap with
    | nil =>
        rw [front] at length
        exact absurd length.symm none_kept
    | cons worst rest =>
        have heap := holds.heap
        rw [front] at heap length fresh again
        have size : rest.length + 1 = k := length
        dsimp only
        by_cases before : Scored.ranksBefore c worst
        · -- the worst makes room
          rw [if_neg (not_not.mpr before)]
          obtain ⟨others, popped, heap', perm⟩ := spec.pop worst rest heap
          obtain ⟨pushed, perm'⟩ := spec.push others c heap'
          have better : Scored.ranksLe c worst = true := by
            refine Scored.ranksLe_iff.mpr fun back => ?_
            rcases Scored.ranksBefore_iff.mp before with less | ⟨same, less⟩
            · rcases Scored.ranksBefore_iff.mp back with less' | ⟨same', _⟩
              · exact lt_asymm less less'
              · exact less.ne same'
            · rcases Scored.ranksBefore_iff.mp back with less' | ⟨_, less'⟩
              · exact less'.ne same
              · omega
          have kept : BestK.best Scored.ranksLe k (worst :: rest ++ [c]) =
              (rest ++ [c]).mergeSort Scored.ranksLe := by
            rw [← size, List.cons_append, ← List.length_singleton (a := c), ← List.length_append]
            refine BestK.best_cons_worst Scored.ranksLe_linear fun x mem => ?_
            rcases List.mem_append.mp mem with old | last
            · exact Scored.front_worst heap (List.mem_cons_of_mem _ old)
            · rw [List.mem_singleton.mp last]
              exact better
          have inside : c ∈ (rest ++ [c]).mergeSort Scored.ranksLe :=
            (List.mergeSort_perm _ _).mem_iff.mpr (List.mem_append_right _ (List.mem_singleton_self c))
          rw [kept, decide_eq_true inside, popped, List.dropLast_concat]
          refine ⟨_, rfl, rfl, pushed, ?_⟩
          rw [← again, kept]
          exact perm'.trans ((perm.append_right [c]).trans (List.mergeSort_perm _ _).symm)
        · rw [if_pos before]
          have kept : BestK.best Scored.ranksLe k (worst :: rest ++ [c]) =
              (worst :: rest).mergeSort Scored.ranksLe := by
            rw [BestK.best_perm Scored.ranksLe_linear k (List.perm_append_singleton c (worst :: rest)),
              ← length]
            refine BestK.best_cons_worst Scored.ranksLe_linear fun x mem => ?_
            exact Scored.ranksLe_linear.trans _ _ _ (Scored.front_worst heap mem)
              (Scored.ranksLe_iff.mpr before)
          have outside : c ∉ (worst :: rest).mergeSort Scored.ranksLe :=
            fun mem => fresh ((List.mergeSort_perm _ _).mem_iff.mp mem)
          rw [kept, decide_eq_false outside]
          refine ⟨t, rfl, holds.bound, holds.heap, ?_⟩
          rw [← again, kept, front]
          exact (List.mergeSort_perm _ _).symm
  · rw [if_pos full]
    have short : l.length < k := Nat.not_le.mp fun le => full (holds.full_iff.mpr le)
    rw [Nat.min_eq_right short.le] at length
    have all : (BestK.best Scored.ranksLe k (t.heap ++ [c])).Perm (t.heap ++ [c]) := by
      rw [BestK.best, List.take_of_length_le]
      · exact List.mergeSort_perm _ _
      · rw [List.length_mergeSort, List.length_append, List.length_singleton]
        omega
    have inside : c ∈ BestK.best Scored.ranksLe k (t.heap ++ [c]) :=
      all.mem_iff.mpr (List.mem_append_right _ (List.mem_singleton_self c))
    obtain ⟨pushed, perm⟩ := spec.push t.heap c holds.heap
    rw [decide_eq_true inside]
    refine ⟨_, rfl, rfl, pushed, ?_⟩
    rw [← again]
    exact perm.trans all.symm

end Holds

variable {k : Nat} {l : List (Scored σ)} (spec : std.Spec Scored.ranksBefore)

include spec

/-- **All pushes** succeed and leave the best. -/
theorem pushAll_holds (nodup : l.Nodup) : ∃ t, pushAll std k l = .ok t ∧ t.Holds k l := by
  induction l using List.reverseRecOn with
  | nil => exact ⟨empty k, rfl, holds_empty k⟩
  | append_singleton front c ih =>
      obtain ⟨t, run, holds⟩ := ih (List.nodup_append.mp nodup).1
      obtain ⟨t', pushed, holds'⟩ := holds.push_holds spec nodup
      refine ⟨t', ?_, holds'⟩
      rw [pushAll] at run ⊢
      rw [List.foldlM_append, run, ok_bind, List.foldlM_cons, pushed]
      rfl

theorem takeSorted_eq {t : HeapTopK σ} (holds : t.Holds k l) :
    t.takeSorted std = (l.mergeSort Scored.ranksLe).take k := by
  obtain ⟨perm, sorted⟩ := spec.sort t.heap
  refine List.Perm.eq_of_pairwise (fun a b _ _ => Scored.ranksLe_linear.antisymm a b) ?_
    ((BestK.sorted Scored.ranksLe_linear l).sublist (List.take_sublist k _)) (perm.trans holds.best)
  exact sorted.imp fun not_before => Scored.ranksLe_iff.mpr not_before

omit spec in
theorem threshold_eq [OrderBot σ] {t : HeapTopK σ} (holds : t.Holds k l) (some_kept : 0 < k) :
    t.threshold = .ok (((l.mergeSort Scored.ranksLe)[k - 1]?).elim ⊥ Scored.score) := by
  rw [threshold]
  split_ifs with full
  · have long := holds.full_iff.mp full
    have length := holds.length_eq
    cases front : t.heap with
    | nil =>
        rw [front, Nat.min_eq_left long] at length
        exact absurd length some_kept.ne
    | cons worst rest =>
        rw [holds.front_eq long front]
        rfl
  · have short : l.length < k := Nat.not_le.mp fun le => full (holds.full_iff.mpr le)
    rw [List.getElem?_eq_none (by rw [List.length_mergeSort]; omega)]
    rfl

/-- **Bounded top-k is order independent**: the pushes `l`, in any order, leave the first `k` of
them in the order of `ranks_before`; a push says whether its candidate is among these; and the
threshold is the score of the `k`-th, which never falls. -/
theorem pushAll_exact [OrderBot σ] (k : Nat) {l : List (Scored σ)} (distinct : (l.map Scored.doc).Nodup) :
    ∃ t, pushAll std k l = .ok t ∧ t.takeSorted std = (l.mergeSort Scored.ranksLe).take k ∧
      (∀ l', l'.Perm l → ∃ t', pushAll std k l' = .ok t' ∧ t'.takeSorted std = t.takeSorted std) ∧
      (0 < k → l.length < k → t.threshold = .ok ⊥) ∧
      (0 < k → k ≤ l.length → ∃ c, (l.mergeSort Scored.ranksLe)[k - 1]? = some c ∧
        t.threshold = .ok c.score) ∧
      ∀ c : Scored σ, c.doc ∉ l.map Scored.doc → ∃ t', t.push std c.doc c.score =
          .ok (decide (c ∈ ((l ++ [c]).mergeSort Scored.ranksLe).take k), t') ∧
        pushAll std k (l ++ [c]) = .ok t' ∧
        (0 < k → ∃ before after, t.threshold = .ok before ∧ t'.threshold = .ok after ∧ before ≤ after) := by
  have nodup := distinct.of_map
  obtain ⟨t, run, holds⟩ := pushAll_holds (k := k) spec nodup
  refine ⟨t, run, takeSorted_eq spec holds, ?_, ?_, ?_, ?_⟩
  · intro l' perm
    obtain ⟨t', run', holds'⟩ := pushAll_holds (k := k) spec (perm.nodup_iff.mpr nodup)
    refine ⟨t', run', ?_⟩
    rw [takeSorted_eq spec holds', takeSorted_eq spec holds]
    exact BestK.best_perm Scored.ranksLe_linear k perm
  · intro some_kept short
    rw [threshold_eq holds some_kept, List.getElem?_eq_none (by rw [List.length_mergeSort]; omega)]
    rfl
  · intro some_kept long
    have inside : k - 1 < (l.mergeSort Scored.ranksLe).length := by
      rw [List.length_mergeSort]
      omega
    refine ⟨_, List.getElem?_eq_getElem inside, ?_⟩
    rw [threshold_eq holds some_kept, List.getElem?_eq_getElem inside]
    rfl
  · intro c new
    have fresh : c ∉ l := fun mem => new (List.mem_map_of_mem mem)
    have nodup' : (l ++ [c]).Nodup := List.nodup_append_comm.mpr (List.nodup_cons.mpr ⟨fresh, nodup⟩)
    obtain ⟨t', pushed, holds'⟩ := holds.push_holds spec nodup'
    refine ⟨t', pushed, ?_, fun some_kept => ?_⟩
    · rw [pushAll] at run ⊢
      rw [List.foldlM_append, run, ok_bind, List.foldlM_cons, pushed]
      rfl
    · refine ⟨_, _, threshold_eq holds some_kept, threshold_eq holds' some_kept, ?_⟩
      cases last_eq : (l.mergeSort Scored.ranksLe)[k - 1]? with
      | none => exact bot_le
      | some worst =>
          obtain ⟨worst', last_eq', le⟩ := BestK.getElem?_sublist
            (BestK.sort_sublist_snoc Scored.ranksLe_linear fresh)
            (BestK.sorted Scored.ranksLe_linear (l ++ [c]))
            (fun a => or_self_iff.mp ((Bool.or_eq_true ..).mp (Scored.ranksLe_linear.total a a))) last_eq
          rw [last_eq']
          rcases Scored.not_ranksBefore_iff.mp (Scored.ranksLe_iff.mp le) with less | ⟨same, -⟩
          · exact less.le
          · exact same.ge

omit [LinearOrder σ] spec in
/-- A tie for the second place of two goes to the lower document. -/
theorem pushAll_exact_three : ∃ t,
    pushAll (Heap.bySorting Scored.ranksLe) 2 [⟨7, 4⟩, ⟨3, 9⟩, ⟨5, 4⟩] = .ok t ∧
      t.takeSorted (Heap.bySorting Scored.ranksLe) =
        (([⟨7, 4⟩, ⟨3, 9⟩, ⟨5, 4⟩] : List (Scored Nat)).mergeSort Scored.ranksLe).take 2 := by
  obtain ⟨t, run, taken, -⟩ := pushAll_exact (σ := Nat) Scored.bySorting_spec 2
    (l := [⟨7, 4⟩, ⟨3, 9⟩, ⟨5, 4⟩]) (by decide)
  exact ⟨t, run, taken⟩

end HeapTopK

/-! ## The heap and the sorted list -/

namespace HeapTopK

/-- `TopK` keeps in ranking order what the heap keeps. -/
structure Arranges (t : HeapTopK ℚ) (s : TopK) : Prop where
  bound : t.k = s.k
  heap : Heap.IsHeap Scored.ranksBefore t.heap
  perm : t.heap.Perm s.heap
  sorted : s.heap.Pairwise fun a b => ranksLe a b = true

namespace Arranges

variable {std : Heap.Algorithms ScoredDoc} {t : HeapTopK ℚ} {s : TopK} (arranges : t.Arranges s)

include arranges

theorem full_eq : t.full = s.full := by rw [HeapTopK.full, TopK.full, arranges.bound, arranges.perm.length_eq]

/-- **The front of the heap is the last of the list.** -/
theorem front_eq {worst : ScoredDoc} {rest : List ScoredDoc} (front : t.heap = worst :: rest) :
    ∃ others, s.heap = others ++ [worst] ∧ rest.Perm others := by
  have heap := arranges.heap
  have perm := arranges.perm
  have sorted := arranges.sorted
  rw [front] at heap perm
  obtain ⟨others, last, is⟩ : ∃ others last, s.heap = others ++ [last] := by
    rcases List.eq_nil_or_concat' s.heap with empty | concat
    · rw [empty] at perm
      exact absurd perm.length_eq (by simp)
    · exact concat
  rw [is] at perm sorted
  have last_mem : last ∈ worst :: rest :=
    perm.mem_iff.mpr (List.mem_append_right _ (List.mem_singleton_self last))
  have behind : ranksLe worst last = true := by
    rcases List.mem_append.mp (perm.mem_iff.mp List.mem_cons_self) with earlier | only
    · exact (List.pairwise_append.mp sorted).2.2 worst earlier last (List.mem_singleton_self last)
    · rw [List.mem_singleton.mp only]
      exact decide_eq_true (.inl rfl)
  have same : last = worst :=
    ranksLe_linear.antisymm _ _ (ranksLe_eq last worst ▸ Scored.front_worst heap last_mem) behind
  rw [same] at is perm
  exact ⟨others, is, (perm.trans (List.perm_append_singleton worst others)).cons_inv⟩

variable (spec : std.Spec Scored.ranksBefore)

include spec

/-- **One push does the same to both.** -/
theorem push_eq (doc : Nat) (score : ℚ) : ∃ t', t.push std doc score = .ok ((s.push doc score).1, t') ∧
    t'.Arranges (s.push doc score).2 := by
  have inserted (others : List ScoredDoc) :
      (others ++ [(⟨doc, score⟩ : ScoredDoc)]).Perm (others.orderedInsert Scored.ranksBefore ⟨doc, score⟩) :=
    (List.perm_append_singleton _ _).trans (List.perm_orderedInsert _ _ _).symm
  rw [HeapTopK.push, TopK.push, arranges.bound, arranges.full_eq]
  by_cases none_kept : s.k = 0
  · rw [if_pos none_kept, if_pos none_kept]
    exact ⟨t, rfl, arranges⟩
  rw [if_neg none_kept, if_neg none_kept]
  dsimp only
  by_cases full : s.full = true
  · rw [if_neg (not_not.mpr full), if_neg (not_not.mpr full)]
    cases front : t.heap with
    | nil =>
        have length := arranges.perm.length_eq
        rw [front] at length
        have enough : s.k ≤ s.heap.length := of_decide_eq_true full
        rw [← length] at enough
        exact absurd (Nat.le_zero.mp enough) none_kept
    | cons worst rest =>
        obtain ⟨others, is, perm⟩ := arranges.front_eq front
        have last : s.front = some worst := by rw [TopK.front, is, List.getLast?_concat]
        rw [last]
        dsimp only
        by_cases before : Scored.ranksBefore ⟨doc, score⟩ worst
        · rw [if_neg (not_not.mpr before), if_neg (not_not.mpr before)]
          obtain ⟨kept, popped, heap, same⟩ := spec.pop worst rest (front ▸ arranges.heap)
          obtain ⟨pushed, again⟩ := spec.push kept ⟨doc, score⟩ heap
          have sorted := arranges.sorted
          rw [is] at sorted ⊢
          rw [popped, List.dropLast_concat, List.dropLast_concat]
          exact ⟨_, rfl, rfl, pushed, again.trans (((same.trans perm).append_right _).trans (inserted others)),
            TopK.orderedInsert_sorted (List.pairwise_append.mp sorted).1⟩
        · rw [if_pos before, if_pos before]
          exact ⟨t, rfl, arranges⟩
  · rw [if_pos full, if_pos full]
    obtain ⟨pushed, again⟩ := spec.push t.heap ⟨doc, score⟩ arranges.heap
    exact ⟨_, rfl, rfl, pushed, again.trans ((arranges.perm.append_right _).trans (inserted s.heap)),
      TopK.orderedInsert_sorted arranges.sorted⟩

theorem takeSorted_eq : t.takeSorted std = s.takeSorted := by
  obtain ⟨perm, sorted⟩ := spec.sort t.heap
  refine List.Perm.eq_of_pairwise (fun a b _ _ => ranksLe_linear.antisymm a b) ?_ arranges.sorted
    (perm.trans arranges.perm)
  exact sorted.imp fun after => not_ranksBefore.mp after

end Arranges

/-- **The sorted list is the heap**, whatever is pushed: every push is admitted by both or by none, and
they return the same. -/
theorem pushAll_eq {std : Heap.Algorithms ScoredDoc} (spec : std.Spec Scored.ranksBefore) (k : Nat)
    (l : List ScoredDoc) : ∃ t, pushAll std k l = .ok t ∧
      t.Arranges (l.foldl (fun s c => (s.push c.doc c.score).2) (TopK.empty k)) ∧
      t.takeSorted std = (l.foldl (fun s c => (s.push c.doc c.score).2) (TopK.empty k)).takeSorted := by
  have run (l : List ScoredDoc) {t : HeapTopK ℚ} {s : TopK} (arranges : t.Arranges s) :
      ∃ t', l.foldlM (fun t c => Prod.snd <$> t.push std c.doc c.score) t = .ok t' ∧
        t'.Arranges (l.foldl (fun s c => (s.push c.doc c.score).2) s) := by
    induction l generalizing t s with
    | nil => exact ⟨t, rfl, arranges⟩
    | cons c rest ih =>
        obtain ⟨t₁, pushed, kept⟩ := arranges.push_eq spec c.doc c.score
        obtain ⟨t', ran, after⟩ := ih kept
        refine ⟨t', ?_, after⟩
        rw [List.foldlM_cons, pushed]
        exact ran
  have start : (empty k : HeapTopK ℚ).Arranges (TopK.empty k) := ⟨rfl, Heap.isHeap_nil, .refl _, .nil⟩
  obtain ⟨t, ran, arranges⟩ := run l start
  exact ⟨t, ran, arranges, arranges.takeSorted_eq spec⟩

end HeapTopK

end HybridSearch.Engine
