/-
# Theory.LinearProbe -- open addressing with linear probing

A table of `n` slots, each free or holding an entry.  `walk` looks from a start
slot for the first slot that is free or whose entry is a hit.  An entry is
`Placed` from its home when every slot between its home and it is taken, so the
walk for it cannot stop short.

* `walk_stops`: with a free slot anywhere the walk ends, at the first stop.
* `walk_hits`: the walk from the home of a placed entry ends on a hit.
* `Placed.update`, `placed_update`: filling a free slot keeps every entry
  placed, and places the new one when the walk from its home ended there.
* `exists_free`: more slots than entries leave a free slot.
* `Table`: the table stores a finite set, each entry placed from its home.
  `Table.lookup` finds an entry or the free slot for it, `Table.add` fills it.

Nothing is said of the hash: the homes are arbitrary.
-/
import Mathlib.Data.Fintype.Card
import Mathlib.Data.Nat.Find

namespace HybridSearch.Theory.LinearProbe

set_option autoImplicit false

variable {α : Type} {n : Nat}

/-- The slot `d` steps after `start`. -/
def slot (n start d : Nat) : Nat := (start + d) % n

/-- The first slot from `i` on, within the fuel, that is free or holds a hit. -/
def walk (n : Nat) (slots : Nat → Option α) (hit : α → Bool) : Nat → Nat → Option Nat
  | 0, _ => none
  | fuel + 1, i =>
      match slots i with
      | none => some i
      | some a => if hit a then some i else walk n slots hit fuel ((i + 1) % n)

/-- The walk ends at this slot. -/
def Stop (slots : Nat → Option α) (hit : α → Bool) (i : Nat) : Prop :=
  ∀ a, slots i = some a → hit a = true

/-- The entry sits `d < n` slots after `start`, with no free slot before it. -/
def Placed (n : Nat) (slots : Nat → Option α) (start : Nat) (a : α) : Prop :=
  ∃ d < n, slots (slot n start d) = some a ∧ ∀ e < d, slots (slot n start e) ≠ none

theorem slot_lt (pos : 0 < n) (start d : Nat) : slot n start d < n := Nat.mod_lt _ pos

theorem slot_zero {i : Nat} (inside : i < n) : slot n i 0 = i := Nat.mod_eq_of_lt inside

theorem slot_succ (i d : Nat) : slot n ((i + 1) % n) d = slot n i (d + 1) := by
  simp only [slot, Nat.mod_add_mod]
  congr 1
  omega

/-- The walk ends at the first stop on its way. -/
theorem walk_eq {slots : Nat → Option α} {hit : α → Bool} (pos : 0 < n) (d fuel : Nat) :
    ∀ i < n, d < fuel → Stop slots hit (slot n i d) →
      (∀ e < d, ¬ Stop slots hit (slot n i e)) →
      walk n slots hit fuel i = some (slot n i d) := by
  induction d generalizing fuel with
  | zero =>
      intro i inside enough stop _
      obtain ⟨fuel, rfl⟩ : ∃ f, fuel = f + 1 := ⟨fuel - 1, by omega⟩
      rw [slot_zero inside] at stop ⊢
      cases occupied : slots i with
      | none => simp [walk, occupied]
      | some a => simp [walk, occupied, stop a occupied]
  | succ d ih =>
      intro i inside enough stop before
      obtain ⟨fuel, rfl⟩ : ∃ f, fuel = f + 1 := ⟨fuel - 1, by omega⟩
      have here := before 0 (by omega)
      rw [slot_zero inside, Stop] at here
      push Not at here
      obtain ⟨a, occupied, miss⟩ := here
      simp only [walk, occupied, if_neg miss]
      rw [← slot_succ] at stop ⊢
      refine ih fuel _ (Nat.mod_lt _ pos) (by omega) stop fun e less => ?_
      rw [slot_succ]
      exact before (e + 1) (by omega)

/-- **A walk over a table with a free slot ends**, at the first stop on its way. -/
theorem walk_stops {slots : Nat → Option α} (hit : α → Bool) {free : Nat} (inside : free < n)
    (isFree : slots free = none) {i : Nat} (start : i < n) :
    ∃ d < n, walk n slots hit n i = some (slot n i d) ∧ Stop slots hit (slot n i d) ∧
      ∀ e < d, ¬ Stop slots hit (slot n i e) := by
  classical
  have pos : 0 < n := by omega
  -- the free slot is reached within one round
  have reached : slot n i ((free + n - i) % n) = free := by
    rw [slot, Nat.add_mod_mod, show i + (free + n - i) = free + n by omega, Nat.add_mod_right,
      Nat.mod_eq_of_lt inside]
  have stops : ∃ d, Stop slots hit (slot n i d) := by
    refine ⟨(free + n - i) % n, fun a occupied => ?_⟩
    rw [reached, isFree] at occupied
    cases occupied
  have early : Nat.find stops < n := by
    refine lt_of_le_of_lt (Nat.find_le ?_) (Nat.mod_lt (free + n - i) pos)
    intro a occupied
    rw [reached, isFree] at occupied
    cases occupied
  have stop := Nat.find_spec stops
  have before : ∀ e < Nat.find stops, ¬ Stop slots hit (slot n i e) := fun e less =>
    Nat.find_min stops less
  exact ⟨_, early, walk_eq pos _ _ i start early stop before, stop, before⟩

/-- **The walk from the home of a placed hit does not end on a free slot.** -/
theorem walk_hits {slots : Nat → Option α} {hit : α → Bool} {i d : Nat} {a : α}
    (placed : Placed n slots i a) (isHit : hit a = true)
    (before : ∀ e < d, ¬ Stop slots hit (slot n i e)) : slots (slot n i d) ≠ none := by
  obtain ⟨d', _, occupied, taken⟩ := placed
  rcases Nat.lt_trichotomy d' d with less | rfl | more
  · intro _
    refine before d' less fun b isB => ?_
    rw [occupied] at isB
    cases isB
    exact isHit
  · rw [occupied]
    exact Option.some_ne_none a
  · exact taken d more

/-- Filling a free slot keeps every entry placed. -/
theorem Placed.update {slots : Nat → Option α} {start j : Nat} {a : α}
    (placed : Placed n slots start a) (isFree : slots j = none) (b : α) :
    Placed n (Function.update slots j (some b)) start a := by
  obtain ⟨d, less, slot_eq, taken⟩ := placed
  have apart : ∀ i, slots i ≠ none → i ≠ j := fun i occupied same => occupied (same ▸ isFree)
  refine ⟨d, less, ?_, fun e earlier => ?_⟩
  · rw [Function.update_of_ne (apart _ (by rw [slot_eq]; exact Option.some_ne_none a)), slot_eq]
  · rw [Function.update_of_ne (apart _ (taken e earlier))]
    exact taken e earlier

/-- The entry put where the walk from its home ended is placed. -/
theorem placed_update {slots : Nat → Option α} {hit : α → Bool} {i d : Nat} (less : d < n)
    (before : ∀ e < d, ¬ Stop slots hit (slot n i e)) (isFree : slots (slot n i d) = none) (b : α) :
    Placed n (Function.update slots (slot n i d) (some b)) i b := by
  refine ⟨d, less, Function.update_self _ _ _, fun e earlier => ?_⟩
  have taken : slots (slot n i e) ≠ none := by
    intro free
    refine before e earlier fun a occupied => ?_
    rw [free] at occupied
    cases occupied
  have apart : slot n i e ≠ slot n i d := fun same => taken (same.symm ▸ isFree)
  rw [Function.update_of_ne apart]
  exact taken

/-- Slots that hold a smaller set, each entry once, leave a free slot. -/
theorem exists_free_of_card {slots : Nat → Option α} {s : Finset α} (fewer : s.card < n)
    (known : ∀ i < n, ∀ a, slots i = some a → a ∈ s)
    (once : ∀ i < n, ∀ j < n, ∀ a, slots i = some a → slots j = some a → i = j) :
    ∃ i < n, slots i = none := by
  by_contra full
  push Not at full
  have taken : ∀ i : Fin n, ∃ a, slots i = some a := fun i =>
    Option.ne_none_iff_exists'.mp (full i i.isLt)
  choose entry occupied using taken
  let f : Fin n → s := fun i => ⟨entry i, known i i.isLt _ (occupied i)⟩
  have injective : Function.Injective f := by
    intro i j same
    have value : entry i = entry j := congrArg Subtype.val same
    exact Fin.ext (once i i.isLt j j.isLt _ (occupied i) (value ▸ occupied j))
  have := Fintype.card_le_of_injective f injective
  rw [Fintype.card_fin, Fintype.card_coe] at this
  omega

/-- Fewer entries than slots leave a free slot. -/
theorem exists_free {slots : Nat → Option Nat} {m : Nat} (fewer : m < n)
    (known : ∀ i < n, ∀ a, slots i = some a → a < m)
    (once : ∀ i < n, ∀ j < n, ∀ a, slots i = some a → slots j = some a → i = j) :
    ∃ i < n, slots i = none := by
  rw [← Finset.card_range m] at fewer
  exact exists_free_of_card fewer (fun i inside a occupied => Finset.mem_range.mpr (known i inside a occupied)) once

/-! ## A table of a finite set -/

/-- The slots hold the set `s`, every entry placed from its home. -/
structure Table (n : Nat) (slots : Nat → Option α) (home : α → Nat) (s : Finset α) : Prop where
  known : ∀ i < n, ∀ a, slots i = some a → a ∈ s
  once : ∀ i < n, ∀ j < n, ∀ a, slots i = some a → slots j = some a → i = j
  placed : ∀ a ∈ s, Placed n slots (home a) a

namespace Table

variable {slots : Nat → Option α} {home : α → Nat} {s : Finset α}

theorem empty (n : Nat) (home : α → Nat) : Table n (fun _ => none) home ∅ where
  known _ _ _ occupied := by cases occupied
  once _ _ _ _ _ occupied := by cases occupied
  placed a mem := by cases mem

theorem free (table : Table n slots home s) (fewer : s.card < n) : ∃ i < n, slots i = none :=
  exists_free_of_card fewer table.known table.once

/-- **A lookup ends at the entry, or at a free slot where the entry can be put.** -/
theorem lookup [DecidableEq α] (table : Table n slots home s) (fewer : s.card < n) {a : α}
    (inside : home a < n) :
    ∃ d < n, walk n slots (fun b => decide (b = a)) n (home a) = some (slot n (home a) d) ∧
      slots (slot n (home a) d) = (if a ∈ s then some a else none) ∧
      ∀ e < d, ¬ Stop slots (fun b => decide (b = a)) (slot n (home a) e) := by
  obtain ⟨free, free_inside, is_free⟩ := table.free fewer
  obtain ⟨d, less, walked, stop, before⟩ :=
    walk_stops (fun b => decide (b = a)) free_inside is_free inside
  refine ⟨d, less, walked, ?_, before⟩
  have pos : 0 < n := by omega
  cases occupied : slots (slot n (home a) d) with
  | none =>
      rw [if_neg]
      intro stored
      exact walk_hits (table.placed a stored) (decide_eq_true rfl) before occupied
  | some b =>
      have same : b = a := of_decide_eq_true (stop b occupied)
      rw [if_pos (same ▸ table.known _ (slot_lt pos _ _) b occupied), same]

/-- **Putting a new entry where its lookup ended.** -/
theorem add [DecidableEq α] (table : Table n slots home s) {hit : α → Bool} {a : α} {d : Nat}
    (new : a ∉ s) (less : d < n) (is_free : slots (slot n (home a) d) = none)
    (before : ∀ e < d, ¬ Stop slots hit (slot n (home a) e)) :
    Table n (Function.update slots (slot n (home a) d) (some a)) home (insert a s) where
  known i inside b occupied := by
    by_cases here : i = slot n (home a) d
    · rw [here, Function.update_self] at occupied
      cases occupied
      exact Finset.mem_insert_self a s
    · rw [Function.update_of_ne here] at occupied
      exact Finset.mem_insert_of_mem (table.known i inside b occupied)
  once i i_in j j_in b at_i at_j := by
    have old {m : Nat} (m_in : m < n) (at_m : slots m = some b) : b ≠ a := fun same =>
      new (same ▸ table.known m m_in b at_m)
    by_cases i_here : i = slot n (home a) d
    · by_cases j_here : j = slot n (home a) d
      · rw [i_here, j_here]
      · rw [i_here, Function.update_self] at at_i
        rw [Function.update_of_ne j_here] at at_j
        cases at_i
        exact absurd rfl (old j_in at_j)
    · rw [Function.update_of_ne i_here] at at_i
      by_cases j_here : j = slot n (home a) d
      · rw [j_here, Function.update_self] at at_j
        cases at_j
        exact absurd rfl (old i_in at_i)
      · rw [Function.update_of_ne j_here] at at_j
        exact table.once i i_in j j_in b at_i at_j
  placed b mem := by
    rcases Finset.mem_insert.mp mem with rfl | old
    · exact placed_update less before is_free b
    · exact (table.placed b old).update is_free a

end Table

end HybridSearch.Theory.LinearProbe
