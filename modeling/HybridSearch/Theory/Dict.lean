/-
# Theory.Dict -- dictionaries in insertion order

A dictionary is the list of its entries, in the order their keys were first
assigned.  `assign` overwrites the value of a key in place or appends the entry,
so the keys stay pairwise distinct, and a dictionary is then determined by its
keys and its lookups.

* `fill` assigns a list of entries, later ones winning;
* `accumulate` adds each entry's value to what its key already has;
* `fillNew` assigns the value of a function at every key not yet there.
-/
import Mathlib.Data.List.Nodup
import Mathlib.Algebra.BigOperators.Group.List.Basic

namespace HybridSearch.Theory.Dict

set_option autoImplicit false

variable {κ β : Type} [DecidableEq κ]

def keys (dict : List (κ × β)) : List κ := dict.map Prod.fst

omit [DecidableEq κ] in
@[simp] theorem keys_nil : keys ([] : List (κ × β)) = [] := rfl

omit [DecidableEq κ] in
@[simp] theorem keys_cons (entry : κ × β) (rest : List (κ × β)) :
    keys (entry :: rest) = entry.1 :: keys rest := rfl

omit [DecidableEq κ] in
theorem mem_keys_of_mem {dict : List (κ × β)} {key : κ} {value : β} (mem : (key, value) ∈ dict) :
    key ∈ keys dict := List.mem_map_of_mem (f := Prod.fst) mem

def assign : List (κ × β) → κ → β → List (κ × β)
  | [], key, value => [(key, value)]
  | (k, v) :: rest, key, value =>
      if key = k then (key, value) :: rest else (k, v) :: assign rest key value

/-! ## Lookups -/

theorem lookup_cons_ite (k key : κ) (value : β) (rest : List (κ × β)) :
    ((key, value) :: rest).lookup k = if k = key then some value else rest.lookup k := by
  rw [List.lookup_cons]
  by_cases same : k = key
  · rw [if_pos same, beq_iff_eq.mpr same]
  · rw [if_neg same, beq_eq_false_iff_ne.mpr same]

theorem isSome_lookup_iff {dict : List (κ × β)} {key : κ} :
    (dict.lookup key).isSome ↔ key ∈ keys dict := by
  rw [List.lookup_isSome_iff, keys, List.mem_map]
  constructor
  · rintro ⟨entry, mem, same⟩
    exact ⟨entry, mem, (beq_iff_eq.mp same).symm⟩
  · rintro ⟨entry, mem, same⟩
    exact ⟨entry, mem, beq_iff_eq.mpr same.symm⟩

theorem lookup_eq_none {dict : List (κ × β)} {key : κ} (absent : key ∉ keys dict) :
    dict.lookup key = none := by
  rw [← Option.not_isSome_iff_eq_none, isSome_lookup_iff]
  exact absent

theorem lookup_of_mem {dict : List (κ × β)} (distinct : (keys dict).Nodup) {key : κ} {value : β}
    (mem : (key, value) ∈ dict) : dict.lookup key = some value := by
  induction dict with
  | nil => cases mem
  | cons entry rest ih =>
      obtain ⟨k, v⟩ := entry
      rw [keys_cons, List.nodup_cons] at distinct
      rcases List.mem_cons.mp mem with same | later
      · cases same
        rw [lookup_cons_ite, if_pos rfl]
      · have other : key ≠ k := by
          rintro rfl
          exact distinct.1 (mem_keys_of_mem later)
        rw [lookup_cons_ite, if_neg other]
        exact ih distinct.2 later

theorem lookup_assign (dict : List (κ × β)) (key : κ) (value : β) (k : κ) :
    (assign dict key value).lookup k = if k = key then some value else dict.lookup k := by
  induction dict with
  | nil => rw [assign, lookup_cons_ite]
  | cons entry rest ih =>
      obtain ⟨k', v⟩ := entry
      rw [assign]
      by_cases here : key = k'
      · subst here
        rw [if_pos rfl, lookup_cons_ite, lookup_cons_ite]
        by_cases same : k = key
        · rw [if_pos same, if_pos same]
        · rw [if_neg same, if_neg same, if_neg same]
      · rw [if_neg here, lookup_cons_ite, lookup_cons_ite, ih]
        by_cases same : k = k'
        · subst same
          rw [if_pos rfl, if_neg (Ne.symm here), if_pos rfl]
        · rw [if_neg same, if_neg same]

/-! ## Keys -/

theorem mem_keys_assign {dict : List (κ × β)} {key k : κ} {value : β} :
    k ∈ keys (assign dict key value) ↔ k = key ∨ k ∈ keys dict := by
  rw [← isSome_lookup_iff, ← isSome_lookup_iff, lookup_assign]
  by_cases same : k = key
  · rw [if_pos same]
    exact ⟨fun _ => .inl same, fun _ => rfl⟩
  · rw [if_neg same]
    exact ⟨.inr, fun there => there.resolve_left same⟩

theorem assign_of_fresh {dict : List (κ × β)} {key : κ} (absent : key ∉ keys dict) (value : β) :
    assign dict key value = dict ++ [(key, value)] := by
  induction dict with
  | nil => rfl
  | cons entry rest ih =>
      rw [keys_cons, List.mem_cons, not_or] at absent
      rw [assign, if_neg absent.1, ih absent.2, List.cons_append]

theorem nodup_assign {dict : List (κ × β)} (distinct : (keys dict).Nodup) (key : κ) (value : β) :
    (keys (assign dict key value)).Nodup := by
  induction dict with
  | nil => exact List.nodup_singleton key
  | cons entry rest ih =>
      rw [keys_cons, List.nodup_cons] at distinct
      rw [assign]
      split_ifs with here
      · rw [keys_cons, List.nodup_cons, here]
        exact distinct
      · rw [keys_cons, List.nodup_cons, mem_keys_assign, not_or]
        exact ⟨⟨Ne.symm here, distinct.1⟩, ih distinct.2⟩

/-- **A dictionary is its keys and its lookups.** -/
theorem eq_map_keys {dict : List (κ × β)} (distinct : (keys dict).Nodup) {value : κ → β}
    (agrees : ∀ key ∈ keys dict, dict.lookup key = some (value key)) :
    dict = (keys dict).map fun key => (key, value key) := by
  rw [keys, List.map_map]
  conv_lhs => rw [← List.map_id dict]
  apply List.map_congr_left
  intro entry mem
  have found := agrees entry.1 (mem_keys_of_mem mem)
  rw [lookup_of_mem distinct (show (entry.1, entry.2) ∈ dict from mem), Option.some_inj] at found
  exact Prod.ext rfl found

/-! ## Filling -/

def fill (dict entries : List (κ × β)) : List (κ × β) :=
  entries.foldl (fun acc entry => assign acc entry.1 entry.2) dict

theorem fill_append_of_fresh {dict entries : List (κ × β)}
    (distinct : (keys entries).Nodup) (fresh : ∀ key ∈ keys entries, key ∉ keys dict) :
    fill dict entries = dict ++ entries := by
  induction entries generalizing dict with
  | nil => exact (List.append_nil dict).symm
  | cons entry rest ih =>
      rw [keys_cons, List.nodup_cons] at distinct
      have new : entry.1 ∉ keys dict := fresh entry.1 (List.mem_cons_self ..)
      rw [fill, List.foldl_cons, assign_of_fresh new, ← fill, ih distinct.2]
      · rw [List.append_assoc, List.singleton_append]
      · intro key mem
        rw [keys, List.map_append, List.mem_append, not_or]
        refine ⟨fresh key (List.mem_cons_of_mem _ mem), ?_⟩
        intro here
        exact distinct.1 (List.mem_singleton.mp here ▸ mem)

/-- **Filling an empty dictionary with distinct keys gives the entries back.** -/
theorem fill_nil {entries : List (κ × β)} (distinct : (keys entries).Nodup) :
    fill [] entries = entries := by
  have fresh : ∀ key ∈ keys entries, key ∉ keys ([] : List (κ × β)) := fun _ _ => List.not_mem_nil
  rw [fill_append_of_fresh distinct fresh, List.nil_append]

/-- Assign `value key` at each key that is not there yet. -/
def fillNew (value : κ → β) (dict : List (κ × β)) (ks : List κ) : List (κ × β) :=
  ks.foldl (fun acc key =>
    if (acc.lookup key).isSome then acc else assign acc key (value key)) dict

theorem fillNew_holds {value : κ → β} {dict : List (κ × β)} (distinct : (keys dict).Nodup)
    (agrees : ∀ key ∈ keys dict, dict.lookup key = some (value key)) (ks : List κ) :
    (keys (fillNew value dict ks)).Nodup ∧
      (∀ key ∈ keys (fillNew value dict ks), (fillNew value dict ks).lookup key = some (value key)) ∧
      ∀ key, key ∈ keys (fillNew value dict ks) ↔ key ∈ keys dict ∨ key ∈ ks := by
  induction ks generalizing dict with
  | nil => exact ⟨distinct, agrees, fun key => by simp [fillNew]⟩
  | cons k rest ih =>
      rw [fillNew, List.foldl_cons, ← fillNew]
      split_ifs with there
      · obtain ⟨distinct', agrees', members⟩ := ih distinct agrees
        refine ⟨distinct', agrees', fun key => ?_⟩
        rw [members, List.mem_cons]
        constructor
        · rintro (old | new)
          · exact .inl old
          · exact .inr (.inr new)
        · rintro (old | rfl | new)
          · exact .inl old
          · exact .inl (isSome_lookup_iff.mp there)
          · exact .inr new
      · have still : ∀ key ∈ keys (assign dict k (value k)),
            (assign dict k (value k)).lookup key = some (value key) := by
          intro key mem
          rw [lookup_assign]
          split_ifs with same
          · rw [same]
          · exact agrees key ((mem_keys_assign.mp mem).resolve_left same)
        obtain ⟨distinct', agrees', members⟩ := ih (nodup_assign distinct k (value k)) still
        refine ⟨distinct', agrees', fun key => ?_⟩
        rw [members, mem_keys_assign, List.mem_cons]
        tauto

/-! ## Accumulating -/

variable {K : Type} [AddMonoid K]

def accumulate (dict entries : List (κ × K)) : List (κ × K) :=
  entries.foldl (fun acc entry => assign acc entry.1 ((acc.lookup entry.1).getD 0 + entry.2)) dict

/-- **What a key has after accumulating is what it had and the sum of its entries.** -/
theorem accumulate_getD (dict entries : List (κ × K)) (key : κ) :
    ((accumulate dict entries).lookup key).getD 0 =
      (dict.lookup key).getD 0 + ((entries.filter (·.1 = key)).map Prod.snd).sum := by
  induction entries generalizing dict with
  | nil => rw [accumulate, List.foldl_nil, List.filter_nil, List.map_nil, List.sum_nil, add_zero]
  | cons entry rest ih =>
      rw [accumulate, List.foldl_cons, ← accumulate, ih, lookup_assign]
      by_cases same : entry.1 = key
      · rw [if_pos same.symm, Option.getD_some, same,
          List.filter_cons_of_pos (by simpa using same), List.map_cons, List.sum_cons, add_assoc]
      · rw [if_neg (Ne.symm same), List.filter_cons_of_neg (by simpa using same)]

theorem mem_keys_accumulate {dict entries : List (κ × K)} {key : κ} :
    key ∈ keys (accumulate dict entries) ↔ key ∈ keys dict ∨ key ∈ keys entries := by
  induction entries generalizing dict with
  | nil => simp [accumulate]
  | cons entry rest ih =>
      rw [accumulate, List.foldl_cons, ← accumulate, ih, mem_keys_assign, keys_cons, List.mem_cons]
      tauto

theorem nodup_accumulate {dict : List (κ × K)} (distinct : (keys dict).Nodup)
    (entries : List (κ × K)) : (keys (accumulate dict entries)).Nodup := by
  induction entries generalizing dict with
  | nil => exact distinct
  | cons entry rest ih => exact ih (nodup_assign distinct _ _)

/-- Keys that occur once contribute their one entry. -/
theorem sum_of_mem {entries : List (κ × K)} (distinct : (keys entries).Nodup) {key : κ} {x : K}
    (mem : (key, x) ∈ entries) : ((entries.filter (·.1 = key)).map Prod.snd).sum = x := by
  induction entries with
  | nil => cases mem
  | cons entry rest ih =>
      rw [keys_cons, List.nodup_cons] at distinct
      rcases List.mem_cons.mp mem with rfl | mem
      · have none_left : rest.filter (·.1 = key) = [] := by
          rw [List.filter_eq_nil_iff]
          intro e there same
          have repeated : e.1 ∈ keys rest := List.mem_map_of_mem there
          rw [of_decide_eq_true same] at repeated
          exact distinct.1 repeated
        rw [List.filter_cons_of_pos (by simp), none_left, List.map_singleton, List.sum_singleton]
      · have other : entry.1 ≠ key := fun same => distinct.1 (same ▸ mem_keys_of_mem mem)
        rw [List.filter_cons_of_neg (by simpa using other)]
        exact ih distinct.2 mem

theorem sum_of_not_mem {entries : List (κ × K)} {key : κ} (absent : key ∉ keys entries) :
    ((entries.filter (·.1 = key)).map Prod.snd).sum = 0 := by
  have nothing : entries.filter (·.1 = key) = [] := by
    rw [List.filter_eq_nil_iff]
    intro e there same
    exact absent (of_decide_eq_true same ▸ List.mem_map_of_mem (f := Prod.fst) there)
  rw [nothing, List.map_nil, List.sum_nil]

end HybridSearch.Theory.Dict
