/-
# Theory.BestK -- the best `k` of a list, from parts

`best` sorts a list and keeps its first `k`.  Keeping only the best `k` of a part
first changes nothing (`best_append`), so the best of a whole come from the best
of its parts (`best_flatMap`).
-/
import Mathlib.Data.List.Nodup
import Mathlib.Data.List.NodupEquivFin
import Mathlib.Order.WellFounded
import Mathlib.Data.List.Sort
import Mathlib.Data.List.Perm.Subperm

namespace HybridSearch.Theory.BestK

set_option autoImplicit false

variable {α : Type} (le : α → α → Bool)

def best (k : Nat) (l : List α) : List α := (l.mergeSort le).take k

/-- A linear order, as a comparison. -/
structure Linear : Prop where
  trans : ∀ a b c, le a b = true → le b c = true → le a c = true
  total : ∀ a b, (le a b || le b a) = true
  antisymm : ∀ a b, le a b = true → le b a = true → a = b

variable {le} (linear : Linear le)
include linear

theorem sorted (l : List α) : (l.mergeSort le).Pairwise fun a b => le a b = true :=
  List.pairwise_mergeSort linear.trans linear.total l

/-- There is one sorted list of the same elements. -/
theorem sort_unique {l l' : List α} (sorted' : l'.Pairwise fun a b => le a b = true)
    (perm : l.Perm l') : l.mergeSort le = l' :=
  List.Perm.eq_of_pairwise (fun a b _ _ => linear.antisymm a b) (sorted linear l) sorted'
    ((List.mergeSort_perm l le).trans perm)

theorem best_perm (k : Nat) {l l' : List α} (perm : l.Perm l') : best le k l = best le k l' := by
  have same := sort_unique linear (sorted linear l') (perm.trans (List.mergeSort_perm l' le).symm)
  rw [best, best, same]

omit linear in
theorem mem_of_mem_best {k : Nat} {l : List α} {a : α} (mem : a ∈ best le k l) : a ∈ l :=
  (List.mergeSort_perm l le).mem_iff.mp (List.mem_of_mem_take mem)

omit linear in
theorem nodup_best {k : Nat} {l : List α} (nodup : l.Nodup) : (best le k l).Nodup :=
  ((List.mergeSort_perm l le).nodup_iff.mpr nodup).sublist (List.take_sublist ..)

/-- One more, that is the worst. -/
theorem best_cons_worst {m : α} {l : List α} (worst : ∀ x ∈ l, le x m = true) :
    best le l.length (m :: l) = l.mergeSort le := by
  have last : (m :: l).mergeSort le = l.mergeSort le ++ [m] := by
    refine sort_unique linear (List.pairwise_append.mpr
      ⟨sorted linear l, List.pairwise_singleton _ _, fun x mem y last => ?_⟩) ?_
    · rw [List.mem_singleton.mp last]
      exact worst x ((List.mergeSort_perm l le).mem_iff.mp mem)
    · exact ((List.mergeSort_perm l le).symm.cons m).trans (List.perm_append_singleton m _).symm
  rw [best, last, List.take_left' (List.length_mergeSort l)]

/-- Sorting a selection selects from the sorted list. -/
theorem sort_filter (p : α → Bool) (l : List α) :
    (l.filter p).mergeSort le = (l.mergeSort le).filter p :=
  sort_unique linear ((sorted linear l).filter p) ((List.mergeSort_perm l le).filter p).symm

omit linear in
/-- A place in part of a sorted list holds nothing earlier than the same place in the whole. -/
theorem getElem?_sublist {part whole : List α} (sub : part.Sublist whole)
    (in_order : whole.Pairwise fun a b => le a b = true) (refl : ∀ a, le a a = true) {i : Nat} {a : α}
    (entry_eq : part[i]? = some a) : ∃ b, whole[i]? = some b ∧ le b a = true := by
  obtain ⟨f, place⟩ := List.sublist_iff_exists_orderEmbedding_getElem?_eq.mp sub
  have later : i ≤ f i := StrictMono.le_apply f.strictMono
  rw [place] at entry_eq
  obtain ⟨inside, entry⟩ := List.getElem?_eq_some_iff.mp entry_eq
  refine ⟨whole[i], List.getElem?_eq_getElem (later.trans_lt inside), ?_⟩
  rcases later.eq_or_lt with same | less
  · rw [← same] at entry_eq
    rw [Option.some.inj ((List.getElem?_eq_getElem (later.trans_lt inside)).symm.trans entry_eq)]
    exact refl a
  · rw [← entry]
    exact List.pairwise_iff_getElem.mp in_order i (f i) _ inside less

omit linear in
/-- A selection that keeps the first `k` does not change them. -/
theorem take_filter_of_keeps {p : α → Bool} {k : Nat} {l : List α}
    (keeps : ∀ a ∈ l.take k, p a = true) : (l.filter p).take k = l.take k := by
  have split : (l.take k).filter p ++ (l.drop k).filter p = l.filter p := by
    rw [← List.filter_append, List.take_append_drop]
  rw [List.filter_eq_self.mpr keeps] at split
  rcases Nat.lt_or_ge l.length k with short | long
  · rw [List.drop_eq_nil_of_le short.le, List.filter_nil, List.append_nil] at split
    rw [← split, List.take_take, Nat.min_self]
  · have length : (l.take k).length = k := List.length_take_of_le long
    rw [← split, List.take_append_of_le_length length.ge, List.take_take, Nat.min_self]

theorem self (a : α) : le a a = true := by
  simpa using linear.total a a

/-- **The best `k` are those with fewer than `k` others before them.** -/
theorem mem_best_iff {k : Nat} {l : List α} {a : α} (nodup : l.Nodup) :
    a ∈ best le k l ↔ a ∈ l ∧ l.countP (fun x => le x a) ≤ k := by
  have perm := List.mergeSort_perm l le
  rw [best, ← perm.mem_iff, ← perm.countP_eq]
  have in_order := sorted linear l
  have nodup' := perm.nodup_iff.mpr nodup
  generalize l.mergeSort le = s at in_order nodup'
  induction s generalizing k with
  | nil => simp
  | cons x s ih =>
      obtain ⟨first, rest_order⟩ := List.pairwise_cons.mp in_order
      obtain ⟨new, rest_nodup⟩ := List.nodup_cons.mp nodup'
      rw [List.mem_cons]
      rcases k with _ | k
      · refine iff_of_false List.not_mem_nil ?_
        rintro ⟨mem, before_none⟩
        have no_place := List.countP_eq_zero.mp (Nat.le_zero.mp before_none)
        exact no_place a (List.mem_cons.mpr mem) (self linear a)
      · have rest : a ∈ s.take k ↔ a ∈ s ∧ s.countP (fun y => le y a) ≤ k := ih rest_order rest_nodup
        rw [List.take_succ_cons, List.mem_cons, rest]
        rcases eq_or_ne a x with rfl | other
        · have after : s.countP (fun y => le y a) = 0 :=
            List.countP_eq_zero.mpr fun y mem before =>
              new (linear.antisymm a y (first y mem) before ▸ mem)
          have count : (a :: s).countP (fun y => le y a) = 0 + 1 :=
            after ▸ List.countP_cons_of_pos (self linear a)
          rw [count]
          exact iff_of_true (.inl rfl) ⟨.inl rfl, Nat.le_add_left _ _⟩
        · rw [or_iff_right other, or_iff_right other]
          refine and_congr_right fun mem => ?_
          have count : (x :: s).countP (fun y => le y a) = s.countP (fun y => le y a) + 1 :=
            List.countP_cons_of_pos (first a mem)
          rw [count, Nat.add_le_add_iff_right]

theorem mem_best_of_le {k : Nat} {l : List α} {a b : α} (nodup : l.Nodup) (chosen : a ∈ best le k l)
    (mem : b ∈ l) (better : le b a = true) : b ∈ best le k l := by
  obtain ⟨-, few⟩ := (mem_best_iff linear nodup).mp chosen
  refine (mem_best_iff linear nodup).mpr ⟨mem, le_trans (List.countP_mono_left fun x _ => ?_) few⟩
  exact fun before => linear.trans x b a before better

/-- Any selection that holds the best of the whole has the same best. -/
theorem best_selection {k : Nat} {l selected : List α} (nodup : l.Nodup) (sel_nodup : selected.Nodup)
    (sub : ∀ a ∈ selected, a ∈ l) (keeps : ∀ a ∈ best le k l, a ∈ selected) :
    best le k selected = best le k l := by
  classical
  have selection : selected.Perm (l.filter fun a => decide (a ∈ selected)) := by
    rw [List.perm_ext_iff_of_nodup sel_nodup (nodup.filter _)]
    intro a
    rw [List.mem_filter, decide_eq_true_eq]
    exact ⟨fun mem => ⟨sub a mem, mem⟩, fun both => both.2⟩
  rw [best_perm linear k selection, best, sort_filter linear]
  exact take_filter_of_keeps fun a mem => decide_eq_true (keeps a mem)

/-- One more element leaves the order of the others. -/
theorem sort_sublist_snoc {l : List α} {c : α} (new : c ∉ l) :
    (l.mergeSort le).Sublist ((l ++ [c]).mergeSort le) := by
  classical
  have others : (l ++ [c]).filter (fun x => decide (x ≠ c)) = l := by
    rw [List.filter_append, List.filter_eq_self.mpr, List.filter_eq_nil_iff.mpr, List.append_nil]
    · intro x only
      rw [List.mem_singleton.mp only, decide_eq_true_eq, not_not]
    · intro x mem
      exact decide_eq_true fun same => new (same ▸ mem)
  have part := sort_filter linear (fun x => decide (x ≠ c)) (l ++ [c])
  rw [others] at part
  rw [part]
  exact List.filter_sublist

/-- **Keeping only the best of a part loses none of the best.** -/
theorem best_append (k : Nat) {a b : List α} (nodup : (a ++ b).Nodup) :
    best le k (best le k a ++ b) = best le k (a ++ b) := by
  obtain ⟨a_nodup, b_nodup, apart⟩ := List.nodup_append.mp nodup
  refine best_selection linear nodup ?_ ?_ ?_
  · exact List.nodup_append.mpr
      ⟨nodup_best a_nodup, b_nodup, fun x kept y other => apart x (mem_of_mem_best kept) y other⟩
  · exact fun x mem => List.mem_append.mpr ((List.mem_append.mp mem).imp_left mem_of_mem_best)
  · intro x mem
    obtain ⟨place, few⟩ := (mem_best_iff linear nodup).mp mem
    rw [List.countP_append] at few
    refine List.mem_append.mpr ((List.mem_append.mp place).imp_left fun in_a => ?_)
    exact (mem_best_iff linear a_nodup).mpr ⟨in_a, (Nat.le_add_right _ _).trans few⟩

/-- Elements that are worse than all the best, once there are `k`, change nothing. -/
theorem best_append_worse {k : Nat} {a b : List α} (nodup : (a ++ b).Nodup) (full : k ≤ a.length)
    (worse : ∀ x ∈ b, ∀ y ∈ best le k a, le y x = true) : best le k (a ++ b) = best le k a := by
  refine (best_selection linear nodup (List.nodup_append.mp nodup).1
    (fun x mem => List.mem_append_left b mem) fun x mem => ?_).symm
  obtain ⟨place, few⟩ := (mem_best_iff linear nodup).mp mem
  refine (List.mem_append.mp place).resolve_right fun in_b => ?_
  rw [List.countP_append] at few
  have sub : (best le k a).Subperm a :=
    (List.take_sublist k _).subperm.trans (List.mergeSort_perm a le).subperm
  have all : (best le k a).countP (fun y => le y x) = (best le k a).length :=
    List.countP_eq_length.mpr fun y mem => worse x in_b y mem
  have length : (best le k a).length = k := by
    rw [best, List.length_take, List.length_mergeSort, Nat.min_eq_left full]
  have many : k ≤ a.countP fun y => le y x := by
    rw [← length, ← all]
    exact sub.countP_le _
  have own : 0 < b.countP fun y => le y x := List.countP_pos_iff.mpr ⟨x, in_b, self linear x⟩
  omega

/-- The best so far, filled up with an element that is worse than all. -/
theorem best_padded {k : Nat} {m : α} {a b : List α} (nodup : (a ++ b).Nodup)
    (worst : ∀ x ∈ a ++ b, le x m = true) :
    best le k (best le k a ++ List.replicate (k - a.length) m ++ b) =
      best le k (a ++ b) ++ List.replicate (k - (a ++ b).length) m := by
  have kept : (best le k a).length = min k a.length := by
    rw [best, List.length_take, List.length_mergeSort]
  have merged : (best le k a ++ List.replicate (k - a.length) m ++ b).mergeSort le =
      (best le k a ++ b).mergeSort le ++ List.replicate (k - a.length) m := by
    refine sort_unique linear (List.pairwise_append.mpr ⟨sorted linear _, ?_, ?_⟩) ?_
    · exact List.pairwise_replicate.mpr (.inr (self linear m))
    · intro x mem y pad
      rw [List.eq_of_mem_replicate pad]
      have mem' := (List.mergeSort_perm _ le).mem_iff.mp mem
      exact worst x (List.mem_append.mpr ((List.mem_append.mp mem').imp_left mem_of_mem_best))
    · rw [List.append_assoc]
      refine (List.perm_append_comm.append_left _).trans ?_
      rw [← List.append_assoc]
      exact (List.mergeSort_perm _ le).symm.append_right _
  rw [← best_append linear k nodup, best, merged, List.take_append, List.length_mergeSort,
    List.length_append, kept, List.take_replicate, List.length_append, best]
  congr 2
  omega

omit linear in
theorem subperm_flatMap_best (k : Nat) (parts : List (List α)) :
    List.Subperm (parts.flatMap (best le k)) parts.flatten := by
  induction parts with
  | nil => exact List.Subperm.refl []
  | cons part rest ih =>
      rw [List.flatMap_cons, List.flatten_cons]
      have sub : List.Subperm (best le k part) (part.mergeSort le) :=
        ⟨_, List.Perm.refl _, List.take_sublist ..⟩
      have part_best : List.Subperm (best le k part) part :=
        List.Subperm.trans sub (List.mergeSort_perm part le).subperm
      exact List.Subperm.append part_best ih

/-- **The best of the whole are the best of the bests of the parts.** -/
theorem best_flatMap (k : Nat) {front : List α} {parts : List (List α)}
    (nodup : (front ++ parts.flatten).Nodup) :
    best le k (front ++ parts.flatMap (best le k)) = best le k (front ++ parts.flatten) := by
  induction parts generalizing front with
  | nil => rfl
  | cons part rest ih =>
      rw [List.flatMap_cons]
      rw [List.flatten_cons] at nodup ⊢
      rw [← List.append_assoc] at nodup
      have kept_nodup : (part ++ (front ++ rest.flatMap (best le k))).Nodup := by
        have fewer : List.Subperm ((front ++ part) ++ rest.flatMap (best le k))
            ((front ++ part) ++ rest.flatten) :=
          List.Subperm.append (List.Subperm.refl _) (subperm_flatMap_best k rest)
        obtain ⟨l, perm, sub⟩ := fewer
        have swapped : l.Perm (part ++ (front ++ rest.flatMap (best le k))) := by
          rw [← List.append_assoc]
          exact perm.trans (List.perm_append_comm.append_right _)
        exact swapped.nodup_iff.mp (nodup.sublist sub)
      calc best le k (front ++ (best le k part ++ rest.flatMap (best le k)))
          = best le k (best le k part ++ (front ++ rest.flatMap (best le k))) :=
            best_perm linear k (by
              rw [← List.append_assoc, ← List.append_assoc]
              exact List.perm_append_comm.append_right _)
        _ = best le k (part ++ (front ++ rest.flatMap (best le k))) := best_append linear k kept_nodup
        _ = best le k ((front ++ part) ++ rest.flatMap (best le k)) :=
            best_perm linear k (by
              rw [← List.append_assoc]
              exact List.perm_append_comm.append_right _)
        _ = best le k ((front ++ part) ++ rest.flatten) := ih nodup
        _ = best le k (front ++ (part ++ rest.flatten)) := by rw [List.append_assoc]

end HybridSearch.Theory.BestK
