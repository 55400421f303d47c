/-
# Theory.Ranking -- the ranking of a set of scored items

A ranking lists every item of a set once with its score, higher scores first and
equal scores by the order of a key.  Where the key tells the items apart there is
one ranking (`Ranks.unique`), so any program that sorts the scored items by such
an order produces it: a sort of the entries (`Ranks.of_mergeSort`), or a stable
sort by score alone of items already in key order (`Ranks.of_stable_argsort`).
-/
import Mathlib.Data.List.Nodup
import Mathlib.Data.List.Sort
import Mathlib.Data.List.GetD
import Mathlib.Order.Basic

namespace HybridSearch.Theory.Ranking

set_option autoImplicit false

variable {ι ι' κ κ' K : Type} [LinearOrder κ] [LinearOrder κ'] [LinearOrder K]

def Before (key : ι → κ) (a b : ι × K) : Prop :=
  b.2 < a.2 ∨ a.2 = b.2 ∧ key a.1 ≤ key b.1

theorem Before.trans {key : ι → κ} {a b c : ι × K} (first : Before key a b)
    (second : Before key b c) : Before key a c := by
  rcases first with higher | ⟨tied, le⟩
  · rcases second with higher' | ⟨tied', _⟩
    · exact .inl (higher'.trans higher)
    · exact .inl (tied' ▸ higher)
  · rcases second with higher' | ⟨tied', le'⟩
    · exact .inl (tied ▸ higher')
    · exact .inr ⟨tied.trans tied', le.trans le'⟩

theorem Before.total (key : ι → κ) (a b : ι × K) : Before key a b ∨ Before key b a := by
  rcases lt_trichotomy a.2 b.2 with lower | tied | higher
  · exact .inr (.inl lower)
  · rcases le_total (key a.1) (key b.1) with le | ge
    · exact .inl (.inr ⟨tied, le⟩)
    · exact .inr (.inr ⟨tied.symm, ge⟩)
  · exact .inl (.inl higher)

theorem Before.antisymm {key : ι → κ} {a b : ι × K} (first : Before key a b)
    (second : Before key b a) : a.2 = b.2 ∧ key a.1 = key b.1 := by
  rcases first with higher | ⟨tied, le⟩
  · rcases second with higher' | ⟨tied', _⟩
    · exact absurd higher' higher.asymm
    · exact absurd higher (tied' ▸ lt_irrefl _)
  · rcases second with higher' | ⟨_, le'⟩
    · exact absurd higher' (tied ▸ lt_irrefl _)
    · exact ⟨tied, le_antisymm le le'⟩

/-- `out` ranks the items by `score`, ties by `key`. -/
structure Ranks (key : ι → κ) (items : List ι) (score : ι → K) (out : List (ι × K)) : Prop where
  entries : out.Perm (items.map fun i => (i, score i))
  ordered : out.Pairwise (Before key)

namespace Ranks

variable {key : ι → κ} {items items' : List ι} {score score' : ι → K} {out out' : List (ι × K)}

theorem mem_iff (ranks : Ranks key items score out) {i : ι} {x : K} :
    (i, x) ∈ out ↔ i ∈ items ∧ score i = x := by
  rw [ranks.entries.mem_iff, List.mem_map]
  constructor
  · rintro ⟨j, mem, same⟩
    cases same
    exact ⟨mem, rfl⟩
  · rintro ⟨mem, rfl⟩
    exact ⟨i, mem, rfl⟩

/-- **There is one ranking.** -/
theorem unique (ranks : Ranks key items score out) (ranks' : Ranks key items' score' out')
    (same_items : items.Perm items') (same_score : ∀ i ∈ items, score i = score' i)
    (told_apart : ∀ i ∈ items, ∀ j ∈ items, key i = key j → i = j) : out = out' := by
  have same_entries : out.Perm out' := by
    refine ranks.entries.trans (List.Perm.trans ?_ ranks'.entries.symm)
    have pointwise : (items.map fun i => (i, score i)) = items.map fun i => (i, score' i) :=
      List.map_congr_left fun i mem => by rw [same_score i mem]
    rw [pointwise]
    exact same_items.map _
  refine List.Perm.eq_of_pairwise ?_ ranks.ordered ranks'.ordered same_entries
  intro a b mem mem' first second
  obtain ⟨tied, same_key⟩ := first.antisymm second
  have a_item := (ranks.mem_iff (i := a.1) (x := a.2)).mp mem
  have b_item := (ranks.mem_iff (i := b.1) (x := b.2)).mp (same_entries.mem_iff.mpr mem')
  exact Prod.ext (told_apart _ a_item.1 _ b_item.1 same_key) tied

/-- **The ranking lists the items in a given order** exactly where that order ranks them. -/
theorem map_fst_eq_iff (ranks : Ranks key items score out) (same_items : items.Perm items')
    (told_apart : ∀ i ∈ items, ∀ j ∈ items, key i = key j → i = j) :
    out.map Prod.fst = items' ↔ (items'.map fun i => (i, score i)).Pairwise (Before key) := by
  constructor
  · rintro rfl
    have scored : (out.map Prod.fst).map (fun i => (i, score i)) = out := by
      rw [List.map_map]
      conv_rhs => rw [← List.map_id out]
      refine List.map_congr_left fun entry mem => ?_
      exact Prod.ext rfl ((ranks.mem_iff (i := entry.1) (x := entry.2)).mp mem).2
    rw [scored]
    exact ranks.ordered
  · intro ordered
    have listed : Ranks key items' score (items'.map fun i => (i, score i)) := ⟨.refl _, ordered⟩
    rw [ranks.unique listed same_items (fun _ _ => rfl) told_apart, List.map_map]
    exact List.map_id _

/-- A ranking under other names for the items. -/
theorem map {key' : ι' → κ'} (ranks : Ranks key items score out) (rename : ι → ι')
    {score' : ι' → K} (keeps_order : ∀ i j, key i ≤ key j → key' (rename i) ≤ key' (rename j))
    (keeps_score : ∀ i ∈ items, score' (rename i) = score i) :
    Ranks key' (items.map rename) score' (out.map (Prod.map rename id)) where
  entries := by
    refine (ranks.entries.map _).trans (List.Perm.of_eq ?_)
    rw [List.map_map, List.map_map]
    apply List.map_congr_left
    intro i mem
    simp only [Function.comp_apply, Prod.map_apply, id_eq, keeps_score i mem]
  ordered := by
    rw [List.pairwise_map]
    refine ranks.ordered.imp ?_
    rintro a b (higher | ⟨tied, le⟩)
    · exact .inl higher
    · exact .inr ⟨tied, keeps_order _ _ le⟩

/-- **Sorting the scored items by the order ranks them.** -/
theorem of_mergeSort {scored : List (ι × K)}
    (entries : scored.Perm (items.map fun i => (i, score i)))
    {le : ι × K → ι × K → Bool} (compares : ∀ a b, le a b = true ↔ Before key a b) :
    Ranks key items score (scored.mergeSort le) where
  entries := (List.mergeSort_perm scored le).trans entries
  ordered := by
    have sorted : (scored.mergeSort le).Pairwise fun a b => le a b = true := by
      apply List.pairwise_mergeSort
      · intro a b c first second
        rw [compares] at first second ⊢
        exact first.trans second
      · intro a b
        rw [Bool.or_eq_true, compares, compares]
        exact Before.total key a b
    exact sorted.imp fun h => (compares _ _).mp h

end Ranks

/-! ## Stable sorting of positions -/

/-- The positions of an array in the order of a stable sort. -/
def argsort (n : Nat) (le : Nat → Nat → Bool) : List Nat := (List.range n).mergeSort le

theorem argsort_perm (n : Nat) (le : Nat → Nat → Bool) : (argsort n le).Perm (List.range n) :=
  List.mergeSort_perm _ _

/-- **Positions that compare equal keep their order.** -/
theorem argsort_stable {n : Nat} {le : Nat → Nat → Bool}
    (trans : ∀ a b c, le a b = true → le b c = true → le a c = true)
    (total : ∀ a b, (le a b || le b a) = true) :
    (argsort n le).Pairwise fun i j => le i j = true ∧ (le j i = true → i ≤ j) := by
  have paired : ((List.range n).zipIdx.mergeSort (List.zipIdxLE le)).map (·.1) =
      (List.range n).mergeSort le := List.mergeSort_zipIdx
  have sorted := List.pairwise_mergeSort (List.zipIdxLE_trans trans) (List.zipIdxLE_total total)
    (List.range n).zipIdx
  have diagonal : ∀ p ∈ ((List.range n).zipIdx).mergeSort (List.zipIdxLE le), p.1 = p.2 := by
    intro p mem
    have there := List.getElem?_of_mem ((List.mergeSort_perm _ _).mem_iff.mp mem)
    obtain ⟨place_eq, here⟩ := there
    simp only [List.getElem?_zipIdx, Option.map_eq_some_iff] at here
    obtain ⟨i, found, rfl⟩ := here
    have := List.getElem?_eq_some_iff.mp found
    obtain ⟨_, value⟩ := this
    simp only [List.getElem_range] at value
    simp only [← value, Nat.zero_add]
  rw [argsort, ← paired, List.pairwise_map]
  refine (List.Pairwise.and_mem.mp sorted).imp ?_
  rintro p q ⟨p_mem, q_mem, le_pq⟩
  have p_diag := diagonal p p_mem
  have q_diag := diagonal q q_mem
  rw [List.zipIdxLE] at le_pq
  split_ifs at le_pq with forward back
  · rw [← p_diag, ← q_diag] at le_pq
    exact ⟨forward, fun _ => of_decide_eq_true le_pq⟩
  · exact ⟨forward, fun h => absurd h back⟩

/-- **A stable sort by score of items in key order ranks them.** -/
theorem Ranks.of_stable_argsort [Inhabited ι] {key : ι → κ} {items : List ι} {score : ι → K}
    {out : List (ι × K)} (ascending : items.Pairwise fun i j => key i ≤ key j) {scores : Nat → K}
    (scored : ∀ p (inside : p < items.length), scores p = score items[p])
    (outs : out = (argsort items.length fun p q => decide (scores q ≤ scores p)).map
      fun p => (items.getD p default, scores p)) :
    Ranks key items score out where
  entries := by
    rw [outs]
    refine ((argsort_perm _ _).map _).trans (List.Perm.of_eq ?_)
    apply List.ext_getElem
    · simp
    · intro p inside inside'
      have here : p < items.length := by simpa using inside'
      simp [scored p here, here]
  ordered := by
    rw [outs, List.pairwise_map]
    have sorted := @argsort_stable items.length (fun p q => decide (scores q ≤ scores p))
      (fun a b c first second => by
        rw [decide_eq_true_eq] at first second ⊢
        exact second.trans first)
      (fun a b => by
        rw [Bool.or_eq_true, decide_eq_true_eq, decide_eq_true_eq]
        exact le_total _ _)
    refine (List.Pairwise.and_mem.mp sorted).imp ?_
    rintro p q ⟨p_mem, q_mem, le, stable⟩
    have p_in : p < items.length := List.mem_range.mp ((argsort_perm _ _).mem_iff.mp p_mem)
    have q_in : q < items.length := List.mem_range.mp ((argsort_perm _ _).mem_iff.mp q_mem)
    rw [decide_eq_true_eq] at le stable
    rcases le.lt_or_eq with higher | tied
    · exact .inl higher
    · refine .inr ⟨tied.symm, ?_⟩
      have in_order := stable tied.symm.le
      simp only [List.getD_eq_getElem _ _ p_in, List.getD_eq_getElem _ _ q_in]
      rcases in_order.lt_or_eq with before | rfl
      · exact List.pairwise_iff_getElem.mp ascending p q p_in q_in before
      · exact le_rfl

end HybridSearch.Theory.Ranking
