/-
# Engine.PrunedSafety -- every document-at-a-time search keeps the same documents

Each loop keeps the best `k` of the documents below a frontier (`Reached`) and all cursors
at it (`Walk`).  A round of `run_daat` scores the next document.  A round of MaxScore or
WAND also skips documents, and each that it skips is excluded: its score is at most a sum
of bounds that cannot beat the threshold (`excluded_of_bound`).

A search that its deadline cuts off has the best of the documents below the frontier it
came to; one that is not cut off has the best of all (`Ended`).
-/
import HybridSearch.Engine.Clauses

namespace HybridSearch.Engine

open HybridSearch.Theory

set_option autoImplicit false

/-! ## Rounds -/

theorem limited_expiredEvery (dl : Deadline) (n : Nat) : (dl.expiredEvery n).2.limited = dl.limited := by
  simp only [Deadline.expiredEvery, Deadline.expired]
  split_ifs <;> rfl

theorem expiredEvery_unlimited {dl : Deadline} (unlimited : dl.limited = false) (n : Nat) :
    (dl.expiredEvery n).1 = false := by
  rw [Deadline.expiredEvery, if_pos (by rw [unlimited]; exact Bool.false_ne_true)]

section Safety

variable {sc : Scorer} {clauses : List Clause} {P : Platform} {ix : LexicalIndex} {codec : Codec}
  {k F shallow : Nat} {top : TopK} {slots : List Slot}

/-- How a search ends. -/
structure Ended (sc : Scorer) (clauses : List Clause) (k : Nat) (dl : Deadline) (result : TopK × Bool) : Prop where
  reached : ∃ F, Reached (matched clauses) (score sc clauses) k result.1 F
  whole : result.2 = false → Reached (matched clauses) (score sc clauses) k result.1 kEnd
  uncut : dl.limited = false → result.2 = false

theorem Ended.cut (reached : Reached (matched clauses) (score sc clauses) k top F) {dl dl' : Deadline} {n : Nat}
    (fired : dl.expiredEvery n = (true, dl')) : Ended sc clauses k dl (top, true) where
  reached := ⟨F, reached⟩
  whole not_cut := by cases not_cut
  uncut unlimited := by
    have never := expiredEvery_unlimited unlimited n
    rw [fired] at never
    cases never

theorem Ended.done (reached : Reached (matched clauses) (score sc clauses) k top kEnd) (dl : Deadline) :
    Ended sc clauses k dl (top, false) where
  reached := ⟨kEnd, reached⟩
  whole _ := reached
  uncut _ := rfl

theorem Ended.later {dl dl' : Deadline} {n : Nat} {fired : Bool} (ticked : dl.expiredEvery n = (fired, dl'))
    {result : TopK × Bool} (ended : Ended sc clauses k dl' result) : Ended sc clauses k dl result where
  reached := ended.reached
  whole := ended.whole
  uncut unlimited := by
    have same := limited_expiredEvery dl n
    rw [ticked] at same
    exact ended.uncut (same.trans unlimited)

/-! ## Scores -/

theorem Walk.score_eq (walk : Walk clauses F shallow slots) (d : Nat) :
    (slots.map fun slot => gainAt sc clauses slot.canon d).sum = score sc clauses d := by
  rw [score, ← (walk.canons.map fun t => gainAt sc clauses t d).sum_eq, List.map_map]
  rfl

/-- A clause that names `d` has a cursor that has not passed it. -/
theorem Walk.exists_slot (walk : Walk clauses F shallow slots) {d : Nat} (hit : matched clauses d) (low : F ≤ d) :
    ∃ slot ∈ slots, slot.doc ≤ d := by
  obtain ⟨c, mem, named⟩ := hit
  obtain ⟨t, found⟩ := List.mem_iff_getElem?.mp mem
  have place : t ∈ slots.map Slot.canon :=
    walk.canons.mem_iff.mpr (List.mem_range.mpr (List.getElem?_eq_some_iff.mp found).1)
  obtain ⟨slot, slot_mem, rfl⟩ := List.mem_map.mp place
  obtain ⟨c', found', stands⟩ := walk.on slot slot_mem
  obtain rfl : c = c' := Option.some.inj (found.symm.trans found')
  exact ⟨slot, slot_mem, stands.reach d named low⟩

theorem minDoc_spec (slots : List Slot) :
    minDoc slots ≤ kEnd ∧ (∀ slot ∈ slots, minDoc slots ≤ slot.doc) ∧
      (minDoc slots < kEnd → ∃ slot ∈ slots, slot.doc = minDoc slots) := by
  have run (m : Nat) : slots.foldl (fun d s => min d s.doc) m ≤ m ∧
      (∀ slot ∈ slots, slots.foldl (fun d s => min d s.doc) m ≤ slot.doc) ∧
      (slots.foldl (fun d s => min d s.doc) m < m →
        ∃ slot ∈ slots, slot.doc = slots.foldl (fun d s => min d s.doc) m) := by
    induction slots generalizing m with
    | nil => exact ⟨le_rfl, List.forall_mem_nil _, fun less => absurd less (lt_irrefl _)⟩
    | cons slot rest ih =>
        obtain ⟨le, low, least⟩ := ih (min m slot.doc)
        rw [List.foldl_cons]
        refine ⟨le.trans (Nat.min_le_left _ _), List.forall_mem_cons.mpr
          ⟨le.trans (Nat.min_le_right _ _), low⟩, fun less => ?_⟩
        rcases le.lt_or_eq with lower | same
        · obtain ⟨other, mem, same⟩ := least lower
          exact ⟨other, List.mem_cons_of_mem _ mem, same⟩
        · refine ⟨slot, List.mem_cons_self .., ?_⟩
          rw [same] at less ⊢
          exact (Nat.min_eq_right (Nat.not_lt.mp fun lower =>
            absurd less (Nat.not_lt.mpr (Nat.le_min.mpr ⟨le_rfl, lower.le⟩)))).symm
  exact run kEnd

/-! ## Tallies -/

/-- The tally holds what the clauses `visited` add to the score of `d`. -/
structure Tally.Holds (sc : Scorer) (clauses : List Clause) (d : Nat) (tally : Tally) (visited : List Nat) : Prop where
  contribs : tally.contrib.length = clauses.length
  hits : tally.hit.length = clauses.length
  value : ∀ t < clauses.length, (if tally.hit.getD t false then tally.contrib.getD t 0 else 0) =
    if t ∈ visited then gainAt sc clauses t d else 0
  sum : tally.partial_ = (visited.map fun t => gainAt sc clauses t d).sum

namespace Tally.Holds

variable {d t : Nat} {tally : Tally} {visited visited' : List Nat}

theorem clear (contribs : tally.contrib.length = clauses.length) (hits : tally.hit.length = clauses.length) :
    tally.clear.Holds sc clauses d [] where
  contribs := contribs
  hits := (List.length_map _).trans hits
  value t inside := by
    have cleared : tally.clear.hit.getD t false = false := by
      rw [Tally.clear, List.getD_eq_getElem _ _ (by rw [List.length_map, hits]; exact inside), List.getElem_map]
    rw [cleared, if_neg Bool.false_ne_true, if_neg List.not_mem_nil]
  sum := rfl

theorem perm (holds : tally.Holds sc clauses d visited) (same : visited.Perm visited') :
    tally.Holds sc clauses d visited' where
  contribs := holds.contribs
  hits := holds.hits
  value t inside := by
    rw [holds.value t inside]
    simp only [same.mem_iff]
  sum := holds.sum.trans (same.map _).sum_eq

theorem skip (holds : tally.Holds sc clauses d visited) (nothing : gainAt sc clauses t d = 0) :
    tally.Holds sc clauses d (t :: visited) where
  contribs := holds.contribs
  hits := holds.hits
  value u inside := by
    rw [holds.value u inside]
    by_cases same : u = t
    · rw [same, nothing, ite_self, ite_self]
    · simp only [List.mem_cons, same, false_or]
  sum := by rw [holds.sum, List.map_cons, List.sum_cons, nothing, zero_add]

theorem add (holds : tally.Holds sc clauses d visited) (inside : t < clauses.length) :
    (tally.add t (gainAt sc clauses t d)).Holds sc clauses d (t :: visited) where
  contribs := (List.length_set ..).trans holds.contribs
  hits := (List.length_set ..).trans holds.hits
  value u u_inside := by
    have old := holds.value u u_inside
    rw [List.getD_eq_getElem?_getD, List.getD_eq_getElem?_getD] at old ⊢
    rw [Tally.add, List.getElem?_set, List.getElem?_set, holds.hits, holds.contribs]
    by_cases same : t = u
    · subst same
      simp only [inside, if_true, Option.getD_some, List.mem_cons, true_or]
    · simp only [same, if_false, List.mem_cons, eq_comm (a := u), false_or]
      exact old
  sum := by
    rw [Tally.add, holds.sum, List.map_cons, List.sum_cons, add_comm]

/-- **The canonical sum** adds up the visited clauses. -/
theorem canonicalSum_eq (holds : tally.Holds sc clauses d visited) : tally.canonicalSum =
    ((List.range clauses.length).map fun t => if t ∈ visited then gainAt sc clauses t d else 0).sum := by
  have fold (entries : List (ℚ × Bool)) (s : ℚ) :
      entries.foldl (fun s entry => if entry.2 then s + entry.1 else s) s =
        s + (entries.map fun entry => if entry.2 then entry.1 else 0).sum := by
    induction entries generalizing s with
    | nil => rw [List.foldl_nil, List.map_nil, List.sum_nil, add_zero]
    | cons entry rest ih =>
        rw [List.foldl_cons, ih, List.map_cons, List.sum_cons]
        split_ifs
        · rw [add_assoc]
        · rw [zero_add]
  rw [Tally.canonicalSum, fold, zero_add]
  congr 1
  apply List.ext_getElem
  · rw [List.length_map, List.length_zip, List.length_map, List.length_range, holds.contribs, holds.hits,
      Nat.min_self]
  · intro t _ inside
    rw [List.length_map, List.length_range] at inside
    have value := holds.value t inside
    rw [List.getD_eq_getElem _ _ (holds.hits ▸ inside), List.getD_eq_getElem _ _ (holds.contribs ▸ inside)] at value
    rw [List.getElem_map, List.getElem_map, List.getElem_zip, List.getElem_range]
    exact value

/-- All clauses visited. -/
theorem canonicalSum_all (holds : tally.Holds sc clauses d visited)
    (all : visited.Perm (List.range clauses.length)) : tally.canonicalSum = score sc clauses d := by
  rw [holds.canonicalSum_eq, score]
  refine congrArg List.sum (List.map_congr_left fun t mem => if_pos (all.mem_iff.mpr mem))

end Tally.Holds

/-! ## Bounds -/

/-- **A bound that cannot beat the threshold** excludes what it bounds. -/
theorem excluded_of_bound (reached : Reached (matched clauses) (score sc clauses) k top F) {s bound : ℚ}
    (low : cannotBeat top bound = true) (nonneg : 0 ≤ bound) (le : s ≤ bound) : Excluded top s := by
  rw [cannotBeat] at low
  split at low
  · rename_i x threshold
    obtain ⟨full, small⟩ := Bool.and_eq_true_iff.mp low
    refine .of_threshold reached full threshold (le.trans (le_trans ?_ (of_decide_eq_true small)))
    have slack : (1 : ℚ) ≤ kBoundSlack := by norm_num [kBoundSlack]
    exact le_mul_of_one_le_right nonneg slack
  · cases low

variable (good : ∀ c ∈ clauses, c.Good sc P ix codec)
include good

/-! ## run_daat -/

theorem scoreAt_spec {d : Nat} (inside : d < kEnd) (s : ℚ)
    (on : ∀ slot ∈ slots, slot.On clauses F shallow) :
    ∃ slots', scoreAt P ix codec sc d slots s =
        .ok (s + (slots.map fun slot => if slot.doc = d then gainAt sc clauses slot.canon d else 0).sum, slots') ∧
      slots'.map Slot.canon = slots.map Slot.canon ∧
      (∀ slot ∈ slots', slot.On clauses (max F (d + 1)) shallow) ∧
      ((∀ slot ∈ slots, d ≤ slot.doc) → ∀ slot ∈ slots', d < slot.doc) ∧
      remaining clauses slots' ≤ remaining clauses slots ∧
      ((∃ slot ∈ slots, slot.doc = d) → remaining clauses slots' < remaining clauses slots) := by
  induction slots generalizing s with
  | nil =>
      refine ⟨[], by rw [scoreAt, List.map_nil, List.sum_nil, add_zero]; rfl, rfl, List.forall_mem_nil _, fun _ => List.forall_mem_nil _, le_rfl, ?_⟩
      rintro ⟨slot, mem, -⟩
      cases mem
  | cons slot rest ih =>
      obtain ⟨here, on⟩ := List.forall_mem_cons.mp on
      rw [scoreAt]
      by_cases same : slot.doc = d
      · subst same
        obtain ⟨slot', stepped, on', further, canon, fewer⟩ := here.next_on good inside
        obtain ⟨rest', run, canons, rest_on, after, le, -⟩ :=
          ih (s + gainAt sc clauses slot.canon slot.doc) on
        rw [if_pos rfl, here.contrib_eq good inside, ok_bind, stepped, ok_bind, run, ok_bind]
        refine ⟨slot' :: rest', ?_, ?_, List.forall_mem_cons.mpr ⟨on', rest_on⟩, fun low => ?_, ?_, fun _ => ?_⟩
        · rw [List.map_cons, List.sum_cons, if_pos rfl, add_assoc]
          rfl
        · rw [List.map_cons, List.map_cons, canon, canons]
        · exact List.forall_mem_cons.mpr ⟨further, after fun other mem => low other (List.mem_cons_of_mem _ mem)⟩
        · simp only [remaining, List.map_cons, List.sum_cons] at le ⊢
          omega
        · simp only [remaining, List.map_cons, List.sum_cons] at le ⊢
          omega
      · obtain ⟨rest', run, canons, rest_on, after, le, less⟩ := ih s on
        rw [if_neg same, run, ok_bind]
        refine ⟨slot :: rest', ?_, ?_, List.forall_mem_cons.mpr ⟨here.mono (le_max_left _ _) le_rfl, rest_on⟩,
          fun low => ?_, ?_, ?_⟩
        · rw [List.map_cons, List.sum_cons, if_neg same, zero_add]
          rfl
        · rw [List.map_cons, List.map_cons, canons]
        · obtain ⟨first, low⟩ := List.forall_mem_cons.mp low
          exact List.forall_mem_cons.mpr ⟨lt_of_le_of_ne first fun eq => same eq.symm, after low⟩
        · simp only [remaining, List.map_cons, List.sum_cons] at le ⊢
          omega
        · rintro ⟨other, mem, eq⟩
          have := less ⟨other, (List.mem_cons.mp mem).resolve_left fun first => same (first ▸ eq), eq⟩
          simp only [remaining, List.map_cons, List.sum_cons] at this ⊢
          omega

/-- **`run_daat`** scores every matching document. -/
theorem daatLoop_ends {fuel : Nat} {dl : Deadline}
    (reached : Reached (matched clauses) (score sc clauses) k top F) (walk : Walk clauses F shallow slots)
    (ahead : ∀ slot ∈ slots, F ≤ slot.doc) (le_end : F ≤ kEnd) (enough : remaining clauses slots < fuel) :
    ∃ result, daatLoop P ix codec sc fuel slots top dl = .ok result ∧ Ended sc clauses k dl result := by
  induction fuel generalizing slots top dl F with
  | zero => omega
  | succ fuel ih =>
      obtain ⟨min_le, min_low, least⟩ := minDoc_spec slots
      have none_before (d : Nat) (low : F ≤ d) (before : d < minDoc slots) : ¬matched clauses d := fun hit => by
        obtain ⟨slot, mem, le⟩ := walk.exists_slot hit low
        exact absurd (min_low slot mem) (Nat.not_le.mpr (le.trans_lt before))
      rw [daatLoop]
      by_cases past_end : minDoc slots = kEnd
      · rw [if_pos past_end]
        refine ⟨_, rfl, .done (reached.skip le_end fun d low high hit => ?_) dl⟩
        exact absurd hit (none_before d low (past_end ▸ high))
      · rw [if_neg past_end]
        rcases ticked : dl.expiredEvery kDeadlineEvery with ⟨fired, dl'⟩
        cases fired with
        | true => exact ⟨_, rfl, .cut reached ticked⟩
        | false =>
            have inside := lt_of_le_of_ne min_le past_end
            obtain ⟨first, first_mem, first_doc⟩ := least inside
            have low : F ≤ minDoc slots := first_doc ▸ ahead first first_mem
            obtain ⟨slots', run, canons, on', after, -, fewer⟩ := scoreAt_spec good inside 0 walk.on
            have scored : (slots.map fun slot =>
                if slot.doc = minDoc slots then gainAt sc clauses slot.canon (minDoc slots) else 0).sum =
                score sc clauses (minDoc slots) := by
              rw [← walk.score_eq]
              refine congrArg List.sum (List.map_congr_left fun slot mem => ?_)
              split_ifs with same
              · rfl
              · exact ((walk.on slot mem).gain_eq_zero low
                  (lt_of_le_of_ne (min_low slot mem) fun eq => same eq.symm)).symm
            simp only [Bool.false_eq_true, if_false]
            rw [run, ok_bind, zero_add, scored]
            have hit : matched clauses (minDoc slots) :=
              first_doc ▸ (walk.on first first_mem).matched_doc (first_doc ▸ inside)
            obtain ⟨result, ran, ended⟩ := ih
              (reached.push low none_before hit)
              ⟨canons ▸ walk.canons, fun slot mem => (on' slot mem).mono (by omega) le_rfl⟩
              (after min_low) inside (by have := fewer ⟨first, first_mem, first_doc⟩; omega)
            exact ⟨result, ran, ended.later ticked⟩

/-! ## run_maxscore -/

theorem gather_spec {d : Nat} (inside : d < kEnd) (low : F ≤ d) {tally : Tally} {visited : List Nat}
    (on : ∀ slot ∈ slots, slot.On clauses F shallow) (ahead : ∀ slot ∈ slots, d ≤ slot.doc)
    (known : ∀ slot ∈ slots, slot.canon < clauses.length)
    (holds : tally.Holds sc clauses d visited) :
    ∃ slots' tally', gather P ix codec sc d slots tally = .ok (slots', tally') ∧
      slots'.map Slot.canon = slots.map Slot.canon ∧
      (∀ slot ∈ slots', slot.On clauses (d + 1) shallow ∧ d < slot.doc) ∧
      remaining clauses slots' ≤ remaining clauses slots ∧
      ((∃ slot ∈ slots, slot.doc = d) → remaining clauses slots' < remaining clauses slots) ∧
      tally'.Holds sc clauses d (slots.map Slot.canon ++ visited) := by
  induction slots generalizing tally visited with
  | nil =>
      refine ⟨[], tally, rfl, rfl, List.forall_mem_nil _, le_rfl, ?_, holds⟩
      rintro ⟨slot, mem, -⟩
      cases mem
  | cons slot rest ih =>
      obtain ⟨here, on⟩ := List.forall_mem_cons.mp on
      obtain ⟨first, ahead⟩ := List.forall_mem_cons.mp ahead
      obtain ⟨own, known⟩ := List.forall_mem_cons.mp known
      rw [gather]
      by_cases same : slot.doc = d
      · subst same
        obtain ⟨slot', stepped, on', further, canon, fewer⟩ := here.next_on good inside
        obtain ⟨rest', tally', run, canons, rest_on, le, -, holds'⟩ := ih on ahead known (holds.add own)
        rw [if_pos rfl, here.contrib_eq good inside, ok_bind, stepped, ok_bind, canon, run, ok_bind]
        refine ⟨slot' :: rest', tally', rfl, ?_, List.forall_mem_cons.mpr
          ⟨⟨on'.mono (by omega) le_rfl, further⟩, rest_on⟩, ?_, fun _ => ?_, holds'.perm ?_⟩
        · rw [List.map_cons, List.map_cons, canon, canons]
        · simp only [remaining, List.map_cons, List.sum_cons] at le ⊢
          omega
        · simp only [remaining, List.map_cons, List.sum_cons] at le ⊢
          omega
        · exact List.perm_middle
      · have past : d < slot.doc := lt_of_le_of_ne first fun eq => same eq.symm
        obtain ⟨rest', tally', run, canons, rest_on, le, less, holds'⟩ :=
          ih on ahead known (holds.skip (here.gain_eq_zero low past))
        rw [if_neg same, run, ok_bind]
        refine ⟨slot :: rest', tally', rfl, ?_, List.forall_mem_cons.mpr
          ⟨⟨here.mono (by omega) le_rfl, past⟩, rest_on⟩, ?_, ?_, holds'.perm List.perm_middle⟩
        · rw [List.map_cons, List.map_cons, canons]
        · simp only [remaining, List.map_cons, List.sum_cons] at le ⊢
          omega
        · rintro ⟨other, mem, eq⟩
          have := less ⟨other, (List.mem_cons.mp mem).resolve_left fun first => same (first ▸ eq), eq⟩
          simp only [remaining, List.map_cons, List.sum_cons] at this ⊢
          omega

omit good in
/-- A score is at most what some clauses add and the bounds of the others. -/
theorem score_le_of_split {order : List Nat} (whole : order.Perm (List.range clauses.length)) {d i : Nat}
    (bounded : ∀ t ∈ order.take i, gainAt sc clauses t d ≤ ubAt clauses t) :
    score sc clauses d ≤ ((order.drop i).map fun t => gainAt sc clauses t d).sum +
      ((order.take i).map (ubAt clauses)).sum := by
  have split : score sc clauses d = ((order.take i).map fun t => gainAt sc clauses t d).sum +
      ((order.drop i).map fun t => gainAt sc clauses t d).sum := by
    rw [score, ← (whole.map _).sum_eq, ← List.sum_append, ← List.map_append, List.take_append_drop]
  rw [split, add_comm]
  exact add_le_add_right (List.sum_le_sum bounded) _

/-- The running sums of the bounds. -/
def SumsOf (clauses : List Clause) (order : List Nat) (sums : List ℚ) : Prop :=
  sums.length = order.length ∧
    ∀ i < order.length, sums.getD i 0 = ((order.take (i + 1)).map (ubAt clauses)).sum

theorem score_nonneg (d : Nat) : 0 ≤ score sc clauses d := by
  rw [score]
  apply List.sum_nonneg
  intro x mem
  obtain ⟨t, -, rfl⟩ := List.mem_map.mp mem
  exact gainAt_nonneg good t d

variable (clauses) in
omit good in
theorem remaining_set {i : Nat} (inside : i < slots.length) (slot : Slot) :
    remaining clauses (slots.set i slot) + slots[i].remaining clauses =
      remaining clauses slots + slot.remaining clauses := by
  induction slots generalizing i with
  | nil => cases inside
  | cons first rest ih =>
      cases i with
      | zero =>
          simp only [remaining, List.set_cons_zero, List.map_cons, List.sum_cons, List.getElem_cons_zero]
          omega
      | succ i =>
          have tail := ih (Nat.lt_of_succ_lt_succ inside)
          simp only [remaining, List.set_cons_succ, List.map_cons, List.sum_cons, List.getElem_cons_succ] at tail ⊢
          omega

theorem probe_spec {d i : Nat} {sums : List ℚ} {order : List Nat} {tally : Tally} (inside : d < kEnd)
    (reached : Reached (matched clauses) (score sc clauses) k top F)
    (whole : order.Perm (List.range clauses.length)) (sums_eq : SumsOf clauses order sums)
    (canons : slots.map Slot.canon = order) (le : i ≤ slots.length)
    (on : ∀ slot ∈ slots, slot.On clauses (d + 1) 0) (low : ∀ slot ∈ slots.take i, slot.On clauses d 0)
    (holds : tally.Holds sc clauses d (order.drop i)) :
    ∃ pruned slots' tally', probe P ix codec sc d top sums i slots tally = .ok (pruned, slots', tally') ∧
      slots'.map Slot.canon = order ∧ slots'.drop i = slots.drop i ∧
      (∀ slot ∈ slots', slot.On clauses (d + 1) 0) ∧ remaining clauses slots' ≤ remaining clauses slots ∧
      tally'.contrib.length = clauses.length ∧ tally'.hit.length = clauses.length ∧
      if pruned then Excluded top (score sc clauses d) else tally'.canonicalSum = score sc clauses d := by
  induction i generalizing slots tally with
  | zero =>
      rw [List.drop_zero] at holds
      exact ⟨false, slots, tally, rfl, canons, rfl, on, le_rfl, holds.contribs, holds.hits,
        holds.canonicalSum_all whole⟩
  | succ i ih =>
      have i_lt : i < slots.length := le
      have i_lt' : i < order.length := by rw [← canons, List.length_map]; exact i_lt
      have at_i : slots[i] ∈ slots.take (i + 1) := List.mem_take_iff_getElem.mpr ⟨i, by omega, rfl⟩
      have canon_i : order[i] = slots[i].canon := by
        simp only [← canons, List.getElem_map]
      rw [probe]
      by_cases pruned : cannotBeat top (tally.partial_ + sums.getD i 0) = true
      · rw [if_pos pruned]
        refine ⟨true, slots, tally, rfl, canons, rfl, on, le_rfl, holds.contribs, holds.hits, ?_⟩
        have bounded : ∀ t ∈ order.take (i + 1), gainAt sc clauses t d ≤ ubAt clauses t := by
          intro t mem
          rw [← canons, ← List.map_take] at mem
          obtain ⟨slot, slot_mem, rfl⟩ := List.mem_map.mp mem
          have slot_on := low slot slot_mem
          exact (slot_on.gain_le good d).trans_eq slot_on.ub_eq
        have le_bound := score_le_of_split whole bounded
        have own : sums.getD i 0 = ((order.take (i + 1)).map (ubAt clauses)).sum := sums_eq.2 i i_lt'
        rw [← holds.sum, ← own] at le_bound
        exact excluded_of_bound reached pruned ((score_nonneg good d).trans le_bound) le_bound
      · rw [if_neg pruned, at?_eq_ok (List.getElem?_eq_getElem i_lt), ok_bind]
        obtain ⟨slot', moved, on', reaches, further, canon⟩ :=
          (low slots[i] at_i).nextGeq_on good (Nat.zero_le d) inside.le
        rw [Nat.max_self] at on'
        have canons' : (slots.set i slot').map Slot.canon = order := by
          rw [List.map_set, canon, ← canon_i, canons, List.set_getElem_self]
        have on_set : ∀ slot ∈ slots.set i slot', slot.On clauses (d + 1) 0 := by
          intro slot mem
          rcases List.mem_or_eq_of_mem_set mem with old | rfl
          · exact on slot old
          · exact on'.mono (Nat.le_succ d) le_rfl
        have low_set : ∀ slot ∈ (slots.set i slot').take i, slot.On clauses d 0 := by
          intro slot mem
          rw [List.take_set_of_le le_rfl] at mem
          exact low slot (List.take_subset_take_left slots (Nat.le_succ i) mem)
        have fewer : remaining clauses (slots.set i slot') ≤ remaining clauses slots :=
          by
            have moved := remaining_set clauses i_lt slot'
            have le : slot'.remaining clauses ≤ slots[i].remaining clauses := Slot.On.remaining_le canon further
            omega
        have visited : order.drop i = order[i] :: order.drop (i + 1) := List.drop_eq_getElem_cons i_lt'
        have le_set : i ≤ (slots.set i slot').length := by
          rw [List.length_set]
          exact i_lt.le
        have finish {tally' : Tally} (holds' : tally'.Holds sc clauses d (order.drop i)) :=
          ih canons' le_set on_set low_set holds'
        have tail {slots' : List Slot} (same : slots'.drop i = (slots.set i slot').drop i) :
            slots'.drop (i + 1) = slots.drop (i + 1) := by
          rw [← List.drop_drop, same, List.drop_drop, List.drop_set_of_lt (Nat.lt_succ_self i)]
        rw [moved, ok_bind]
        by_cases same : slot'.doc = d
        · have own : slots[i].canon < clauses.length := by
            rw [← canon_i]
            exact List.mem_range.mp (whole.mem_iff.mp (List.getElem_mem i_lt'))
          have contrib := on'.contrib_eq good (same ▸ inside)
          rw [same, canon] at contrib
          rw [← canon_i] at contrib own
          obtain ⟨stop, slots', tally', run, canons'', rest, on'', le', out⟩ := finish (visited ▸ holds.add own)
          dsimp only
          rw [if_pos same, contrib, ok_bind, canon, ← canon_i, run]
          exact ⟨stop, slots', tally', rfl, canons'', tail rest, on'', le'.trans fewer, out⟩
        · have zero : gainAt sc clauses slot'.canon d = 0 :=
            on'.gain_eq_zero le_rfl (lt_of_le_of_ne reaches fun eq => same eq.symm)
          rw [canon] at zero
          rw [← canon_i] at zero
          obtain ⟨stop, slots', tally', run, canons'', rest, on'', le', out⟩ := finish (visited ▸ holds.skip zero)
          dsimp only
          rw [if_neg same, run]
          exact ⟨stop, slots', tally', rfl, canons'', tail rest, on'', le'.trans fewer, out⟩

/-- What the rounds of `run_maxscore` keep.  The first lists cannot bring in a document. -/
structure Partitioned (clauses : List Clause) (order : List Nat) (top : TopK) (F first : Nat) (slots : List Slot) :
    Prop where
  canons : slots.map Slot.canon = order
  on : ∀ slot ∈ slots, slot.On clauses F 0
  ahead : ∀ slot ∈ slots.drop first, F ≤ slot.doc
  hopeless : 0 < first → Excluded top ((order.take first).map (ubAt clauses)).sum

namespace Partitioned

variable {order : List Nat} {first : Nat}

omit good in
theorem walk (held : Partitioned clauses order top F first slots) (whole : order.Perm (List.range clauses.length)) :
    Walk clauses F 0 slots where
  canons := held.canons ▸ whole
  on := held.on

/-- The frontier passes what only the first lists name. -/
theorem skip (held : Partitioned clauses order top F first slots) (whole : order.Perm (List.range clauses.length))
    (reached : Reached (matched clauses) (score sc clauses) k top F) {e : Nat} (le : F ≤ e)
    (past : ∀ slot ∈ slots.drop first, e ≤ slot.doc) : Reached (matched clauses) (score sc clauses) k top e := by
  refine reached.skip le fun d low high hit => ?_
  have nothing : ∀ t ∈ order.drop first, gainAt sc clauses t d = 0 := by
    intro t mem
    rw [← held.canons, ← List.map_drop] at mem
    obtain ⟨slot, slot_mem, rfl⟩ := List.mem_map.mp mem
    exact (held.on slot (List.mem_of_mem_drop slot_mem)).gain_eq_zero low (high.trans_le (past slot slot_mem))
  have bounded : ∀ t ∈ order.take first, gainAt sc clauses t d ≤ ubAt clauses t := by
    intro t mem
    rw [← held.canons, ← List.map_take] at mem
    obtain ⟨slot, slot_mem, rfl⟩ := List.mem_map.mp mem
    have slot_on := held.on slot (List.mem_of_mem_take slot_mem)
    exact (slot_on.gain_le good d).trans_eq slot_on.ub_eq
  have le_bound := score_le_of_split whole bounded
  have zero : ((order.drop first).map fun t => gainAt sc clauses t d).sum = 0 := by
    apply List.sum_eq_zero
    intro x mem
    obtain ⟨t, t_mem, rfl⟩ := List.mem_map.mp mem
    exact nothing t t_mem
  rw [zero, zero_add] at le_bound
  refine (held.hopeless (Nat.pos_of_ne_zero ?_)).mono le_bound
  rintro rfl
  obtain ⟨slot, mem, reached_slot⟩ := (held.walk whole).exists_slot hit low
  exact absurd (past slot mem) (Nat.not_le.mpr (reached_slot.trans_lt high))

end Partitioned

omit good in
theorem sumsOf_prefixSums (on : ∀ slot ∈ slots, slot.On clauses F shallow) :
    SumsOf clauses (slots.map Slot.canon) (prefixSums 0 slots) := by
  have run (s : ℚ) : (prefixSums s slots).length = slots.length ∧ ∀ i < slots.length,
      (prefixSums s slots).getD i 0 = s + (((slots.map Slot.canon).take (i + 1)).map (ubAt clauses)).sum := by
    induction slots generalizing s with
    | nil => exact ⟨rfl, fun i inside => absurd inside (Nat.not_lt_zero i)⟩
    | cons slot rest ih =>
        obtain ⟨here, on⟩ := List.forall_mem_cons.mp on
        obtain ⟨length, sums⟩ := ih on (s + slot.term.ub)
        rw [prefixSums]
        refine ⟨congrArg (· + 1) length, fun i inside => ?_⟩
        rw [List.map_cons, List.take_succ_cons, List.map_cons, List.sum_cons, ← here.ub_eq, ← add_assoc]
        cases i with
        | zero => rw [List.take_zero, List.map_nil, List.sum_nil, add_zero]; rfl
        | succ i => exact sums i (Nat.lt_of_succ_lt_succ inside)
  obtain ⟨length, sums⟩ := run 0
  refine ⟨length.trans (List.length_map _).symm, fun i inside => ?_⟩
  rw [sums i (by rw [List.length_map] at inside; exact inside), zero_add]

omit good in
/-- The lists that a new partition adds cannot bring in a document either. -/
theorem updatePartition_spec {order : List Nat} {sums : List ℚ} {first : Nat}
    (reached : Reached (matched clauses) (score sc clauses) k top F) (sums_eq : SumsOf clauses order sums)
    (nonneg : ∀ t ∈ order, 0 ≤ ubAt clauses t)
    (hopeless : 0 < first → Excluded top ((order.take first).map (ubAt clauses)).sum) :
    first ≤ updatePartition sums top first ∧
      (0 < updatePartition sums top first →
        Excluded top ((order.take (updatePartition sums top first)).map (ubAt clauses)).sum) := by
  rw [updatePartition]
  refine ⟨Nat.le_add_right _ _, fun first_pos => ?_⟩
  rcases Nat.eq_zero_or_pos ((sums.drop first).takeWhile (cannotBeat top)).length with noneCut | more
  · rw [noneCut] at first_pos ⊢
    exact hopeless first_pos
  · set n := ((sums.drop first).takeWhile (cannotBeat top)).length with n_eq
    have le : n ≤ (sums.drop first).length := (List.takeWhile_sublist _).length_le
    rw [List.length_drop, sums_eq.1] at le
    have inside : first + (n - 1) < sums.length := by
      rw [sums_eq.1]
      omega
    have last : cannotBeat top sums[first + (n - 1)] = true := by
      have at_last : n - 1 < ((sums.drop first).takeWhile (cannotBeat top)).length := by omega
      have hit := List.all_eq_true.mp List.all_takeWhile _ (List.getElem_mem at_last)
      rw [(List.takeWhile_prefix _).getElem at_last, List.getElem_drop] at hit
      exact hit
    rw [← List.getD_eq_getElem _ 0 inside, sums_eq.2 _ (sums_eq.1 ▸ inside),
      show first + (n - 1) + 1 = first + n by omega] at last
    refine excluded_of_bound reached last (List.sum_nonneg fun x mem => ?_) le_rfl
    obtain ⟨t, t_mem, rfl⟩ := List.mem_map.mp mem
    exact nonneg t (List.mem_of_mem_take t_mem)

theorem maxScoreLoop_ends {fuel first : Nat} {sums : List ℚ} {order : List Nat} {tally : Tally} {dl : Deadline}
    (whole : order.Perm (List.range clauses.length)) (sums_eq : SumsOf clauses order sums)
    (reached : Reached (matched clauses) (score sc clauses) k top F)
    (held : Partitioned clauses order top F first slots)
    (contribs : tally.contrib.length = clauses.length) (hits : tally.hit.length = clauses.length)
    (le_end : F ≤ kEnd) (enough : remaining clauses slots < fuel) :
    ∃ result, maxScoreLoop P ix codec sc sums fuel slots first tally top dl = .ok result ∧
      Ended sc clauses k dl result := by
  induction fuel generalizing slots first tally top dl F with
  | zero => omega
  | succ fuel ih =>
      rw [maxScoreLoop]
      by_cases none_left : slots.length ≤ first
      · rw [if_pos none_left]
        refine ⟨_, rfl, .done (held.skip good whole reached le_end fun slot mem => ?_) dl⟩
        rw [List.drop_eq_nil_of_le none_left] at mem
        cases mem
      · rw [if_neg none_left]
        obtain ⟨min_le, min_low, least⟩ := minDoc_spec (slots.drop first)
        by_cases past_end : minDoc (slots.drop first) = kEnd
        · rw [if_pos past_end]
          exact ⟨_, rfl, .done (held.skip good whole reached le_end fun slot mem => past_end ▸ min_low slot mem) dl⟩
        · rw [if_neg past_end]
          rcases ticked : dl.expiredEvery kDeadlineEvery with ⟨fired, dl'⟩
          cases fired with
          | true => exact ⟨_, rfl, .cut reached ticked⟩
          | false =>
              have inside := lt_of_le_of_ne min_le past_end
              obtain ⟨least_slot, least_mem, least_doc⟩ := least inside
              set d := minDoc (slots.drop first) with d_eq
              have low : F ≤ d := least_doc ▸ held.ahead least_slot least_mem
              have reached_d := held.skip good whole reached low min_low
              have hit : matched clauses d := by
                rw [← least_doc]
                exact (held.on _ (List.mem_of_mem_drop least_mem)).matched_doc (least_doc ▸ inside)
              have known : ∀ slot ∈ slots, slot.canon < clauses.length := fun slot mem =>
                List.mem_range.mp (whole.mem_iff.mp (held.canons ▸ List.mem_map_of_mem mem))
              obtain ⟨essential, gathered, run, canons, past, -, fewer, holds⟩ := gather_spec good inside low
                (fun slot mem => held.on slot (List.mem_of_mem_drop mem)) min_low
                (fun slot mem => known slot (List.mem_of_mem_drop mem)) (.clear contribs hits)
              rw [List.append_nil, List.map_drop, held.canons] at holds
              rw [List.map_drop, held.canons] at canons
              have front_length : (slots.take first).length = first :=
                List.length_take_of_le (Nat.le_of_not_le none_left)
              have front_eq : (slots.take first ++ essential).take first = slots.take first :=
                List.take_left' front_length
              have back_eq : (slots.take first ++ essential).drop first = essential :=
                List.drop_left' front_length
              have all_canons : (slots.take first ++ essential).map Slot.canon = order := by
                rw [List.map_append, List.map_take, held.canons, canons, List.take_append_drop]
              obtain ⟨pruned, slots', tally', probed, canons', back, on', le, contribs', hits', out⟩ :=
                probe_spec good inside reached whole sums_eq all_canons
                  (by rw [List.length_append, front_length]; exact Nat.le_add_right _ _)
                  (fun slot mem => by
                    rcases List.mem_append.mp mem with front | back
                    · exact (held.on slot (List.mem_of_mem_take front)).mono (by omega) le_rfl
                    · exact (past slot back).1)
                  (fun slot mem => by
                    rw [front_eq] at mem
                    exact (held.on slot (List.mem_of_mem_take mem)).mono low le_rfl)
                  holds
              have ahead' : ∀ slot ∈ slots'.drop first, d + 1 ≤ slot.doc := by
                rw [back, back_eq]
                exact fun slot mem => (past slot mem).2
              have less : remaining clauses slots' < fuel := by
                have split : remaining clauses slots =
                    remaining clauses (slots.take first) + remaining clauses (slots.drop first) := by
                  rw [remaining, remaining, remaining, ← List.sum_append, ← List.map_append, List.take_append_drop]
                have shorter := fewer ⟨least_slot, least_mem, least_doc⟩
                rw [show remaining clauses (slots.take first ++ essential) =
                  remaining clauses (slots.take first) + remaining clauses essential by
                    rw [remaining, List.map_append, List.sum_append]; rfl] at le
                omega
              simp only [Bool.false_eq_true, if_false]
              rw [run, ok_bind]
              dsimp only
              rw [probed, ok_bind]
              cases pruned with
              | true =>
                  obtain ⟨result, ran, ended⟩ := ih
                    (reached_d.skip (Nat.le_succ d) fun e atLeast before hit => by
                      obtain rfl : e = d := by omega
                      exact out)
                    ⟨canons', on', ahead', held.hopeless⟩ contribs' hits' inside less
                  exact ⟨result, ran, ended.later ticked⟩
              | false =>
                  have pushed := reached_d.push le_rfl (fun e atLeast before => absurd before (by omega)) hit
                  have sum_eq : tally'.canonicalSum = score sc clauses d := out
                  dsimp only
                  rw [sum_eq]
                  have hopeless : 0 < first →
                      Excluded (top.push d (score sc clauses d)).2 ((order.take first).map (ubAt clauses)).sum :=
                    fun first_pos => (held.hopeless first_pos).push d _
                  have nonneg : ∀ t ∈ order, 0 ≤ ubAt clauses t := by
                    intro t mem
                    rw [← held.canons] at mem
                    obtain ⟨slot, slot_mem, rfl⟩ := List.mem_map.mp mem
                    have slot_on := held.on slot slot_mem
                    exact (slot_on.ub_nonneg good).trans_eq slot_on.ub_eq
                  obtain ⟨later, hopeless'⟩ := updatePartition_spec pushed sums_eq nonneg hopeless
                  rcases pushed_eq : top.push d (score sc clauses d) with ⟨admitted, top'⟩
                  rw [pushed_eq] at pushed hopeless hopeless' later
                  cases admitted with
                  | true =>
                      obtain ⟨result, ran, ended⟩ := ih pushed
                        ⟨canons', on', fun slot mem => ahead' slot (List.drop_subset_drop_left slots' later mem),
                          hopeless'⟩ contribs' hits' inside less
                      exact ⟨result, ran, ended.later ticked⟩
                  | false =>
                      obtain ⟨result, ran, ended⟩ := ih pushed ⟨canons', on', ahead', hopeless⟩ contribs' hits' inside less
                      exact ⟨result, ran, ended.later ticked⟩

end Safety

end HybridSearch.Engine
