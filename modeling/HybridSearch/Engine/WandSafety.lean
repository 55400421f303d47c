/-
# Engine.WandSafety -- WAND and block-max WAND keep the same documents

The lists are kept in the order of their documents.  Two frontiers describe a round:
below `F` the search has kept the best, and the documents from `F` to `G` cannot enter
(`Level`).  Lists may lag behind `F`, as long as their bounds together cannot beat the
threshold.  The pivot is never behind `F` (`Level.to_pivot`).  A block-max skip moves `G`
and one list (`Level.skip_blocks`), anything else moves `F` or one list to the pivot
(`Level.moveOn`).
-/
import HybridSearch.Engine.PrunedSafety

namespace HybridSearch.Engine

open HybridSearch.Theory

set_option autoImplicit false

/-! ## sort_by_doc -/

def Slot.le (a b : Slot) : Prop := a.doc ≤ b.doc

theorem perm_insertByDoc (slot : Slot) (sorted : List Slot) : (insertByDoc slot sorted).Perm (slot :: sorted) := by
  induction sorted with
  | nil => exact List.Perm.refl _
  | cons other rest ih =>
      rw [insertByDoc]
      split_ifs
      · exact List.Perm.refl _
      · exact (ih.cons other).trans (List.Perm.swap slot other rest)

theorem sorted_insertByDoc (slot : Slot) {sorted : List Slot} (in_order : sorted.Pairwise Slot.le) :
    (insertByDoc slot sorted).Pairwise Slot.le := by
  induction sorted with
  | nil => exact List.pairwise_singleton _ _
  | cons other rest ih =>
      obtain ⟨first, in_order⟩ := List.pairwise_cons.mp in_order
      rw [insertByDoc]
      split_ifs with before
      · refine List.pairwise_cons.mpr ⟨fun x mem => ?_, List.pairwise_cons.mpr ⟨first, in_order⟩⟩
        rcases List.mem_cons.mp mem with rfl | mem
        · exact before.le
        · exact before.le.trans (first x mem)
      · refine List.pairwise_cons.mpr ⟨fun x mem => ?_, ih in_order⟩
        rcases List.mem_cons.mp ((perm_insertByDoc slot rest).mem_iff.mp mem) with rfl | mem
        · exact Nat.not_lt.mp before
        · exact first x mem

theorem sortByDoc_spec (slots : List Slot) : (sortByDoc slots).Perm slots ∧ (sortByDoc slots).Pairwise Slot.le := by
  have run (sorted : List Slot) (in_order : sorted.Pairwise Slot.le) :
      (slots.foldl (fun sorted slot => insertByDoc slot sorted) sorted).Perm (sorted ++ slots) ∧
        (slots.foldl (fun sorted slot => insertByDoc slot sorted) sorted).Pairwise Slot.le := by
    induction slots generalizing sorted with
    | nil => exact ⟨by rw [List.append_nil]; exact List.Perm.refl _, in_order⟩
    | cons slot rest ih =>
        obtain ⟨perm, sorted'⟩ := ih (insertByDoc slot sorted) (sorted_insertByDoc slot in_order)
        refine ⟨perm.trans (((perm_insertByDoc slot sorted).append_right rest).trans ?_), sorted'⟩
        exact List.perm_middle.symm
  exact run [] List.Pairwise.nil

section Safety

variable {sc : Scorer} {clauses : List Clause} {P : Platform} {ix : LexicalIndex} {codec : Codec}
  {k F G shallow : Nat} {top : TopK} {slots : List Slot}

/-! ## The pivot -/

theorem cannotBeat_mono {bound bound' : ℚ} (le : bound' ≤ bound) (low : cannotBeat top bound = true) :
    cannotBeat top bound' = true := by
  rw [cannotBeat] at low ⊢
  split at low
  · rename_i x threshold
    obtain ⟨full, small⟩ := Bool.and_eq_true_iff.mp low
    refine Bool.and_eq_true_iff.mpr ⟨full, decide_eq_true (le_trans ?_ (of_decide_eq_true small))⟩
    exact mul_le_mul_of_nonneg_right le (by norm_num [kBoundSlack])
  · cases low

/-- The sum of the bounds of some lists. -/
def ubSum (slots : List Slot) : ℚ := (slots.map fun slot => slot.term.ub).sum

/-- The lists before the pivot cannot beat the threshold, and with the pivot's they may. -/
theorem findPivot_spec (top : TopK) (acc : ℚ) (i : Nat) (slots : List Slot) : ∃ m ≤ slots.length,
    (0 < m → cannotBeat top (acc + ubSum (slots.take m)) = true) ∧
      match findPivot top acc i slots with
      | none => ∀ slot ∈ slots[m]?, slot.doc = kEnd
      | some p => p = i + m ∧ (∃ slot ∈ slots[m]?, slot.doc ≠ kEnd) ∧
          cannotBeat top (acc + ubSum (slots.take (m + 1))) = false := by
  induction slots generalizing acc i with
  | nil =>
      refine ⟨0, le_rfl, fun pivot_pos => absurd pivot_pos (lt_irrefl 0), ?_⟩
      intro slot mem
      cases mem
  | cons slot rest ih =>
      rw [findPivot]
      by_cases past_end : slot.doc = kEnd
      · rw [if_pos past_end]
        refine ⟨0, Nat.zero_le _, fun pivot_pos => absurd pivot_pos (lt_irrefl 0), ?_⟩
        intro other mem
        cases mem
        exact past_end
      · rw [if_neg past_end]
        by_cases low : cannotBeat top (acc + slot.term.ub) = true
        · rw [if_pos low]
          obtain ⟨m, le, before, found⟩ := ih (acc + slot.term.ub) (i + 1)
          have sum_eq (n : Nat) : acc + ubSum ((slot :: rest).take (n + 1)) =
              acc + slot.term.ub + ubSum (rest.take n) := by
            rw [List.take_succ_cons, ubSum, List.map_cons, List.sum_cons, ← add_assoc]
            rfl
          refine ⟨m + 1, Nat.succ_le_succ le, fun _ => ?_, ?_⟩
          · rw [sum_eq]
            rcases Nat.eq_zero_or_pos m with rfl | pivot_pos
            · rw [List.take_zero, ubSum, List.map_nil, List.sum_nil, add_zero]
              exact low
            · exact before pivot_pos
          · revert found
            cases findPivot top (acc + slot.term.ub) (i + 1) rest with
            | none => exact id
            | some p =>
                rintro ⟨rfl, pivot_pos, high⟩
                refine ⟨by omega, pivot_pos, ?_⟩
                rw [sum_eq]
                exact high
        · rw [if_neg low]
          refine ⟨0, Nat.zero_le _, fun pivot_pos => absurd pivot_pos (lt_irrefl 0), rfl, ⟨slot, rfl, past_end⟩, ?_⟩
          rw [List.take_succ_cons, List.take_zero, ubSum, List.map_cons, List.map_nil, List.sum_cons, List.sum_nil,
            add_zero]
          exact Bool.not_eq_true _ ▸ low

/-- The bounds of the lists behind `F`. -/
def lagSum (clauses : List Clause) (F : Nat) (slots : List Slot) : ℚ :=
  (slots.map fun slot => if slot.doc < F then ubAt clauses slot.canon else 0).sum

theorem lagSum_split (m : Nat) : lagSum clauses F slots =
    lagSum clauses F (slots.take m) + lagSum clauses F (slots.drop m) := by
  rw [lagSum, lagSum, lagSum, ← List.sum_append, ← List.map_append, List.take_append_drop]

theorem lagSum_ahead (ahead : ∀ slot ∈ slots, F ≤ slot.doc) : lagSum clauses F slots = 0 := by
  apply List.sum_eq_zero
  intro x mem
  obtain ⟨slot, slot_mem, rfl⟩ := List.mem_map.mp mem
  exact if_neg (Nat.not_lt.mpr (ahead slot slot_mem))

theorem lagSum_behind (on : ∀ slot ∈ slots, slot.On clauses G shallow) (behind : ∀ slot ∈ slots, slot.doc < F) :
    lagSum clauses F slots = ubSum slots := by
  rw [lagSum, ubSum]
  refine congrArg List.sum (List.map_congr_left fun slot mem => ?_)
  rw [if_pos (behind slot mem)]
  exact (on slot mem).ub_eq.symm

section Bounds

variable (good : ∀ c ∈ clauses, c.Good sc P ix codec)
include good

theorem lagSum_nonneg (on : ∀ slot ∈ slots, slot.On clauses G shallow) : 0 ≤ lagSum clauses F slots := by
  apply List.sum_nonneg
  intro x mem
  obtain ⟨slot, slot_mem, rfl⟩ := List.mem_map.mp mem
  split_ifs
  · exact ((on slot slot_mem).ub_nonneg good).trans_eq (on slot slot_mem).ub_eq
  · exact le_rfl

theorem lagSum_le (on : ∀ slot ∈ slots, slot.On clauses G shallow) : lagSum clauses F slots ≤ ubSum slots := by
  apply List.sum_le_sum
  intro slot mem
  split_ifs
  · exact (on slot mem).ub_eq.ge
  · exact (on slot mem).ub_nonneg good

end Bounds

/-- What the rounds of `run_wand` keep. -/
structure Level (sc : Scorer) (clauses : List Clause) (top : TopK) (F G : Nat) (slots : List Slot) : Prop
    extends Walk clauses G F slots where
  sorted : slots.Pairwise Slot.le
  le : F ≤ G
  out : ∀ d, F ≤ d → d < G → matched clauses d → Excluded top (score sc clauses d)
  behind : (∃ slot ∈ slots, slot.doc < F) → cannotBeat top (lagSum clauses F slots) = true

theorem sorted_take_le (sorted : slots.Pairwise Slot.le) {m : Nat} (inside : m < slots.length) :
    ∀ slot ∈ slots.take (m + 1), slot.doc ≤ slots[m].doc := by
  intro slot mem
  obtain ⟨i, i_lt, rfl⟩ := List.mem_take_iff_getElem.mp mem
  rcases Nat.lt_or_ge i m with before | past
  · exact List.pairwise_iff_getElem.mp sorted i m _ inside before
  · obtain rfl : i = m := by omega
    exact le_rfl

theorem sorted_le_drop (sorted : slots.Pairwise Slot.le) {m : Nat} (inside : m < slots.length) :
    ∀ slot ∈ slots.drop m, slots[m].doc ≤ slot.doc := by
  intro slot mem
  rw [List.drop_eq_getElem_cons inside] at mem
  rcases List.mem_cons.mp mem with rfl | mem
  · exact le_rfl
  · rw [← List.take_append_drop (m + 1) slots] at sorted
    refine (List.pairwise_append.mp sorted).2.2 _ ?_ slot mem
    exact List.mem_take_iff_getElem.mpr ⟨m, by omega, rfl⟩

/-- A document that the other lists are past is named by the first ones only. -/
theorem Walk.score_take {m : Nat} (walk : Walk clauses G shallow slots) {d : Nat} (low : G ≤ d)
    (past : ∀ slot ∈ slots.drop m, d < slot.doc) :
    score sc clauses d = ((slots.take m).map fun slot => gainAt sc clauses slot.canon d).sum := by
  have zero : ((slots.drop m).map fun slot => gainAt sc clauses slot.canon d).sum = 0 := by
    apply List.sum_eq_zero
    intro x mem
    obtain ⟨slot, slot_mem, rfl⟩ := List.mem_map.mp mem
    exact (walk.on slot (List.mem_of_mem_drop slot_mem)).gain_eq_zero low (past slot slot_mem)
  calc score sc clauses d
    _ = (slots.map fun slot => gainAt sc clauses slot.canon d).sum := (walk.score_eq d).symm
    _ = ((slots.take m).map fun slot => gainAt sc clauses slot.canon d).sum +
          ((slots.drop m).map fun slot => gainAt sc clauses slot.canon d).sum := by
        rw [← List.sum_append, ← List.map_append, List.take_append_drop]
    _ = _ := by rw [zero, add_zero]

namespace Level

variable (good : ∀ c ∈ clauses, c.Good sc P ix codec) {m : Nat}
include good

/-- What only the first lists may name scores at most their bounds. -/
theorem score_le (level : Level sc clauses top F G slots) {d : Nat} (low : G ≤ d)
    (past : ∀ slot ∈ slots.drop m, d < slot.doc) : score sc clauses d ≤ ubSum (slots.take m) := by
  rw [level.score_take low past, ubSum]
  apply List.sum_le_sum
  intro slot mem
  exact (level.on slot (List.mem_of_mem_take mem)).gain_le good d

/-- **Documents that only hopeless lists name** cannot enter. -/
theorem excluded (level : Level sc clauses top F G slots)
    (reached : Reached (matched clauses) (score sc clauses) k top F)
    (before : 0 < m → cannotBeat top (0 + ubSum (slots.take m)) = true) {d : Nat} (low : F ≤ d)
    (past : ∀ slot ∈ slots.drop m, d < slot.doc) (hit : matched clauses d) :
    Excluded top (score sc clauses d) := by
  rcases Nat.lt_or_ge d G with inside | low'
  · exact level.out d low inside hit
  · have le := level.score_le good low' past
    have pivot_pos : 0 < m := by
      obtain ⟨slot, mem, reached_slot⟩ := level.exists_slot hit low'
      refine Nat.pos_of_ne_zero fun empty => ?_
      subst empty
      exact absurd (past slot mem) (Nat.not_lt.mpr reached_slot)
    rw [zero_add] at before
    exact excluded_of_bound reached (before pivot_pos) ((score_nonneg good d).trans le) le

/-- The pivot is not behind the frontier. -/
theorem pivot_ge (level : Level sc clauses top F G slots) (inside : m < slots.length)
    (high : cannotBeat top (0 + ubSum (slots.take (m + 1))) = false) : F ≤ slots[m].doc := by
  by_contra behind
  have all_behind : ∀ slot ∈ slots.take (m + 1), slot.doc < F := fun slot mem =>
    (sorted_take_le level.sorted inside slot mem).trans_lt (Nat.not_le.mp behind)
  have le : ubSum (slots.take (m + 1)) ≤ lagSum clauses F slots := by
    rw [lagSum_split (m + 1), lagSum_behind (fun slot mem => level.on slot (List.mem_of_mem_take mem)) all_behind]
    exact le_add_of_nonneg_right (lagSum_nonneg good fun slot mem => level.on slot (List.mem_of_mem_drop mem))
  have low := level.behind ⟨slots[m], List.getElem_mem inside, Nat.not_le.mp behind⟩
  rw [zero_add] at high
  rw [cannotBeat_mono le low] at high
  cases high

/-- **The frontier moves to the pivot.** -/
theorem to_pivot (level : Level sc clauses top F G slots)
    (reached : Reached (matched clauses) (score sc clauses) k top F) (inside : m < slots.length)
    (before : 0 < m → cannotBeat top (0 + ubSum (slots.take m)) = true)
    (high : cannotBeat top (0 + ubSum (slots.take (m + 1))) = false) :
    Reached (matched clauses) (score sc clauses) k top slots[m].doc ∧
      Level sc clauses top slots[m].doc (max G slots[m].doc) slots := by
  have le := level.pivot_ge good inside high
  have excluded {d : Nat} (low : F ≤ d) (less : d < slots[m].doc) (hit : matched clauses d) :
      Excluded top (score sc clauses d) :=
    level.excluded good reached before low
      (fun slot mem => less.trans_le (sorted_le_drop level.sorted inside slot mem)) hit
  refine ⟨reached.skip le fun d low less hit => excluded low less hit, ⟨level.canons, fun slot mem => ?_⟩,
    level.sorted, le_max_right _ _, fun d low less hit => ?_, fun ⟨slot, mem, less⟩ => ?_⟩
  · exact (level.on slot mem).mono (le_max_left _ _) le
  · exact level.out d (le.trans low) ((lt_max_iff.mp less).resolve_right (Nat.not_lt.mpr low)) hit
  · have pivot_pos : 0 < m := by
      refine Nat.pos_of_ne_zero fun empty => ?_
      subst empty
      exact absurd less (Nat.not_lt.mpr (sorted_le_drop level.sorted inside slot mem))
    have sum_le : lagSum clauses slots[m].doc slots ≤ 0 + ubSum (slots.take m) := by
      rw [lagSum_split m, lagSum_ahead (sorted_le_drop level.sorted inside), add_zero, zero_add]
      exact lagSum_le good fun slot mem => level.on slot (List.mem_of_mem_take mem)
    exact cannotBeat_mono sum_le (before pivot_pos)

end Level

/-! ## A list moves -/

theorem remaining_perm {slots' : List Slot} (same : slots'.Perm slots) :
    remaining clauses slots' = remaining clauses slots := (same.map _).sum_eq

theorem lagSum_perm {slots' : List Slot} (same : slots'.Perm slots) :
    lagSum clauses F slots' = lagSum clauses F slots := (same.map _).sum_eq

theorem lagSum_set {a : Nat} (inside : a < slots.length) {slot : Slot} (ahead : F ≤ slot.doc)
    (nonneg : 0 ≤ lagSum clauses F [slots[a]]) : lagSum clauses F (slots.set a slot) ≤ lagSum clauses F slots := by
  have old : lagSum clauses F slots = lagSum clauses F (slots.take a) +
      (lagSum clauses F [slots[a]] + lagSum clauses F (slots.drop (a + 1))) := by
    rw [lagSum_split a, List.drop_eq_getElem_cons inside]
    simp only [lagSum, List.map_cons, List.map_nil, List.sum_cons, List.sum_nil, add_zero]
  have new : lagSum clauses F (slots.set a slot) = lagSum clauses F (slots.take a) +
      lagSum clauses F (slots.drop (a + 1)) := by
    rw [List.set_eq_take_append_cons_drop, if_pos inside]
    simp only [lagSum, List.map_append, List.sum_append, List.map_cons, List.sum_cons,
      if_neg (Nat.not_lt.mpr ahead), zero_add]
  rw [old, new]
  exact add_le_add_right (le_add_of_nonneg_left nonneg) _

namespace Level

variable (good : ∀ c ∈ clauses, c.Good sc P ix codec)
include good

theorem advanceSlot (level : Level sc clauses top F G slots) {a target : Nat} (inside : a < slots.length)
    (low : F ≤ target) (small : target ≤ kEnd) (less : slots[a].doc < target)
    (out : ∀ d, G ≤ d → d < target → matched clauses d → Excluded top (score sc clauses d)) :
    ∃ slots', advanceSlot P ix codec slots a target = .ok slots' ∧
      Level sc clauses top F (max G target) slots' ∧ remaining clauses slots' < remaining clauses slots := by
  have slot_on := level.on _ (List.getElem_mem inside)
  obtain ⟨slot', moved, on', reaches, further, canon⟩ := slot_on.nextGeq_on good low small
  obtain ⟨perm, sorted⟩ := sortByDoc_spec (slots.set a slot')
  refine ⟨_, by rw [HybridSearch.Engine.advanceSlot, at?_eq_ok (List.getElem?_eq_getElem inside), ok_bind, moved]; rfl,
    ⟨⟨?_, fun slot mem => ?_⟩, sorted, level.le.trans (le_max_left _ _), fun d atLeast before hit => ?_,
      fun ⟨slot, mem, lags⟩ => ?_⟩, ?_⟩
  · refine ((perm.map Slot.canon).trans (List.Perm.of_eq ?_)).trans level.canons
    rw [List.map_set, canon, ← List.getElem_map Slot.canon (h := by rw [List.length_map]; exact inside),
      List.set_getElem_self]
  · rcases List.mem_or_eq_of_mem_set (perm.mem_iff.mp mem) with old | rfl
    · exact (level.on slot old).mono (le_max_left _ _) le_rfl
    · exact on'
  · rcases Nat.lt_or_ge d G with near | far
    · exact level.out d atLeast near hit
    · exact out d far ((lt_max_iff.mp before).resolve_left (Nat.not_lt.mpr far)) hit
  · rw [lagSum_perm perm]
    have old : slot ∈ slots := by
      rcases List.mem_or_eq_of_mem_set (perm.mem_iff.mp mem) with old | rfl
      · exact old
      · exact absurd lags (Nat.not_lt.mpr (low.trans reaches))
    refine cannotBeat_mono (lagSum_set inside (low.trans reaches) ?_) (level.behind ⟨slot, old, lags⟩)
    exact lagSum_nonneg good (List.forall_mem_singleton.mpr slot_on)
  · rw [remaining_perm perm]
    have fewer := slot_on.remaining_lt (less.trans_le small) canon (less.trans_le reaches)
    have set_eq := remaining_set clauses inside slot'
    omega

end Level

/-! ## The pivot is scored -/

section Score

variable (good : ∀ c ∈ clauses, c.Good sc P ix codec) {pivot : Nat}
include good

theorem gatherFirst_spec (small : pivot < kEnd) (on : ∀ slot ∈ slots, slot.On clauses G shallow)
    (known : ∀ slot ∈ slots, slot.canon < clauses.length) {tally : Tally} {visited : List Nat}
    (holds : tally.Holds sc clauses pivot visited) :
    ∃ tally', gatherFirst sc pivot slots tally = .ok tally' ∧
      tally'.Holds sc clauses pivot
        ((slots.takeWhile fun slot => decide (slot.doc = pivot)).map Slot.canon ++ visited) := by
  induction slots generalizing tally visited with
  | nil => exact ⟨tally, rfl, holds⟩
  | cons slot rest ih =>
      obtain ⟨here, on⟩ := List.forall_mem_cons.mp on
      obtain ⟨own, known⟩ := List.forall_mem_cons.mp known
      rw [gatherFirst]
      by_cases same : slot.doc = pivot
      · obtain ⟨tally', run, holds'⟩ := ih on known (holds.add own)
        have contrib := here.contrib_eq good (same ▸ small)
        rw [same] at contrib
        rw [if_pos same, contrib, ok_bind, List.takeWhile_cons, if_pos (decide_eq_true same)]
        exact ⟨tally', run, holds'.perm List.perm_middle⟩
      · rw [if_neg same, List.takeWhile_cons, if_neg (by simpa using same)]
        exact ⟨tally, rfl, holds⟩

theorem stepFirst_spec (small : pivot < kEnd) (sorted : slots.Pairwise Slot.le)
    (on : ∀ slot ∈ slots, slot.On clauses G shallow) (ahead : ∀ slot ∈ slots, pivot ≤ slot.doc) :
    ∃ slots', stepFirst P ix codec pivot slots = .ok slots' ∧
      slots'.map Slot.canon = slots.map Slot.canon ∧
      (∀ slot ∈ slots', slot.On clauses (max G (pivot + 1)) shallow ∧ pivot < slot.doc) ∧
      remaining clauses slots' ≤ remaining clauses slots ∧
      ((∃ slot ∈ slots, slot.doc = pivot) → remaining clauses slots' < remaining clauses slots) := by
  induction slots with
  | nil =>
      refine ⟨[], rfl, rfl, List.forall_mem_nil _, le_rfl, ?_⟩
      rintro ⟨slot, mem, -⟩
      cases mem
  | cons slot rest ih =>
      obtain ⟨here, on⟩ := List.forall_mem_cons.mp on
      obtain ⟨first, ahead⟩ := List.forall_mem_cons.mp ahead
      obtain ⟨least, sorted⟩ := List.pairwise_cons.mp sorted
      rw [stepFirst]
      by_cases same : slot.doc = pivot
      · subst same
        obtain ⟨slot', stepped, on', further, canon, fewer⟩ := here.next_on good small
        obtain ⟨rest', run, canons, rest_on, le, -⟩ := ih sorted on ahead
        rw [if_pos rfl, stepped, ok_bind, run, ok_bind]
        refine ⟨slot' :: rest', rfl, ?_, List.forall_mem_cons.mpr ⟨⟨on', further⟩, rest_on⟩, ?_, fun _ => ?_⟩
        · rw [List.map_cons, List.map_cons, canon, canons]
        · simp only [remaining, List.map_cons, List.sum_cons] at le ⊢
          omega
        · simp only [remaining, List.map_cons, List.sum_cons] at le ⊢
          omega
      · have past : pivot < slot.doc := lt_of_le_of_ne first fun eq => same eq.symm
        rw [if_neg same]
        refine ⟨slot :: rest, rfl, rfl, List.forall_mem_cons.mpr ⟨⟨here.mono (le_max_left _ _) le_rfl, past⟩,
          fun other mem => ⟨(on other mem).mono (le_max_left _ _) le_rfl, past.trans_le (least other mem)⟩⟩, le_rfl, ?_⟩
        rintro ⟨other, mem, eq⟩
        rcases List.mem_cons.mp mem with rfl | mem
        · exact absurd eq same
        · exact absurd eq (Nat.ne_of_gt (past.trans_le (least other mem)))

omit good in
/-- The lists on the pivot come first. -/
theorem mem_first (sorted : slots.Pairwise Slot.le) (ahead : ∀ slot ∈ slots, pivot ≤ slot.doc) {slot : Slot}
    (mem : slot ∈ slots) (same : slot.doc = pivot) :
    slot ∈ slots.takeWhile fun slot => decide (slot.doc = pivot) := by
  induction slots with
  | nil => cases mem
  | cons front rest ih =>
      obtain ⟨least, sorted⟩ := List.pairwise_cons.mp sorted
      obtain ⟨first, ahead⟩ := List.forall_mem_cons.mp ahead
      have here : front.doc = pivot := by
        rcases List.mem_cons.mp mem with rfl | later
        · exact same
        · exact Nat.le_antisymm ((least slot later).trans_eq same) first
      rw [List.takeWhile_cons, if_pos (decide_eq_true here)]
      rcases List.mem_cons.mp mem with rfl | later
      · exact List.mem_cons_self ..
      · exact List.mem_cons_of_mem _ (ih sorted ahead later)

/-- What the lists on the pivot add up to, and when it is the score. -/
theorem canonicalSum_first {tally : Tally} (level : Level sc clauses top F G slots)
    (ahead : ∀ slot ∈ slots, pivot ≤ slot.doc)
    (holds : tally.Holds sc clauses pivot
      ((slots.takeWhile fun slot => decide (slot.doc = pivot)).map Slot.canon)) :
    tally.canonicalSum ≤ score sc clauses pivot ∧
      (G ≤ pivot → tally.canonicalSum = score sc clauses pivot) := by
  rw [holds.canonicalSum_eq, score]
  refine ⟨List.sum_le_sum fun t _ => ?_, fun low => congrArg List.sum (List.map_congr_left fun t mem => ?_)⟩
  · split_ifs
    · exact le_rfl
    · exact gainAt_nonneg good t pivot
  · split_ifs with counted
    · rfl
    · obtain ⟨slot, slot_mem, rfl⟩ := List.mem_map.mp (level.canons.mem_iff.mpr mem)
      refine ((level.on slot slot_mem).gain_eq_zero low (lt_of_le_of_ne (ahead slot slot_mem) fun same => ?_)).symm
      exact counted (List.mem_map_of_mem (mem_first level.sorted ahead slot_mem same.symm))

end Score

theorem lastBefore_spec {pivot : Nat} {a : Nat} (inside : a < slots.length)
    (other : slots[0].doc ≠ pivot) :
    ∃ a' ≤ a, ∃ _ : a' < slots.length, lastBefore pivot slots a = .ok a' ∧ slots[a'].doc ≠ pivot := by
  induction a with
  | zero =>
      refine ⟨0, le_rfl, inside, ?_, other⟩
      rw [lastBefore, at?_eq_ok (List.getElem?_eq_getElem inside), ok_bind, if_neg other]
      rfl
  | succ a ih =>
      rw [lastBefore, at?_eq_ok (List.getElem?_eq_getElem inside), ok_bind]
      by_cases same : slots[a + 1].doc = pivot
      · obtain ⟨a', le, inside', run, differs⟩ := ih (Nat.lt_of_succ_lt inside) other
        exact ⟨a', le.trans (Nat.le_succ a), inside', by rw [if_pos same, run], differs⟩
      · exact ⟨a + 1, le_rfl, inside, by rw [if_neg same]; rfl, same⟩

namespace Level

variable (good : ∀ c ∈ clauses, c.Good sc P ix codec)
include good

/-- **The pivot is scored, or a list moves to it.** -/
theorem moveOn {pivot p : Nat} {tally : Tally} (level : Level sc clauses top pivot G slots)
    (reached : Reached (matched clauses) (score sc clauses) k top pivot) (small : pivot < kEnd)
    (inside : p < slots.length) (at_pivot : slots[p].doc = pivot)
    (contribs : tally.contrib.length = clauses.length) (hits : tally.hit.length = clauses.length) :
    ∃ slots' tally' top' F' G', moveOn P ix codec sc pivot p slots tally top = .ok (slots', tally', top') ∧
      Reached (matched clauses) (score sc clauses) k top' F' ∧ Level sc clauses top' F' G' slots' ∧ F' ≤ kEnd ∧
      tally'.contrib.length = clauses.length ∧ tally'.hit.length = clauses.length ∧
      remaining clauses slots' < remaining clauses slots := by
  have nonempty : 0 < slots.length := (Nat.zero_le p).trans_lt inside
  rw [HybridSearch.Engine.moveOn, at?_eq_ok (List.getElem?_eq_getElem nonempty), ok_bind]
  by_cases front : slots[0].doc = pivot
  · rw [if_pos front]
    have ahead : ∀ slot ∈ slots, pivot ≤ slot.doc := fun slot mem => by
      have le := sorted_le_drop level.sorted nonempty slot
      rw [List.drop_zero, front] at le
      exact le mem
    have known : ∀ slot ∈ slots, slot.canon < clauses.length := fun slot mem =>
      List.mem_range.mp (level.canons.mem_iff.mp (List.mem_map_of_mem mem))
    obtain ⟨tally', gathered, holds⟩ := gatherFirst_spec good small level.on known (.clear contribs hits)
    rw [List.append_nil] at holds
    obtain ⟨stepped, run, canons, on', -, fewer⟩ := stepFirst_spec good small level.sorted level.on ahead
    obtain ⟨sum_le, sum_eq⟩ := canonicalSum_first good level ahead holds
    obtain ⟨perm, sorted⟩ := sortByDoc_spec stepped
    have hit : matched clauses pivot := by
      have mem : slots[0] ∈ slots := List.getElem_mem nonempty
      rw [← front]
      exact (level.on _ mem).matched_doc (front ▸ small)
    rw [gathered, ok_bind, run, ok_bind]
    refine ⟨_, _, _, pivot + 1, max G (pivot + 1), rfl, ?_, ⟨⟨?_, fun slot mem => ?_⟩, sorted, le_max_right _ _,
      fun d low less hit => ?_, fun ⟨slot, mem, lags⟩ => ?_⟩, small, holds.contribs, holds.hits, ?_⟩
    · rcases Nat.lt_or_ge pivot G with near | far
      · have excluded := level.out pivot le_rfl near hit
        rw [(excluded.mono sum_le).push_eq fun c mem => by
          rw [Reached] at reached
          rw [reached] at mem
          exact (mem_below.mp (BestK.mem_of_mem_best mem)).1]
        refine reached.skip (Nat.le_succ pivot) fun d low less hit => ?_
        obtain rfl : d = pivot := by omega
        exact excluded
      · rw [sum_eq far]
        exact reached.push le_rfl (fun e low less => absurd less (by omega)) hit
    · exact ((perm.map Slot.canon).trans (List.Perm.of_eq canons)).trans level.canons
    · exact (on' slot (perm.mem_iff.mp mem)).1.mono le_rfl (Nat.le_succ pivot)
    · refine (level.out d (Nat.le_of_succ_le low) ?_ hit).push pivot _
      exact (lt_max_iff.mp less).resolve_right (Nat.not_lt.mpr low)
    · exact absurd lags (Nat.not_lt.mpr (on' slot (perm.mem_iff.mp mem)).2)
    · rw [remaining_perm perm]
      exact fewer ⟨_, List.getElem_mem nonempty, front⟩
  · rw [if_neg front]
    obtain ⟨a, le, a_inside, found, differs⟩ := lastBefore_spec inside front
    have before : slots[a].doc < pivot := by
      refine lt_of_le_of_ne ?_ differs
      have := sorted_take_le level.sorted inside slots[a] (List.mem_take_iff_getElem.mpr ⟨a, by omega, rfl⟩)
      rwa [at_pivot] at this
    obtain ⟨slots', moved, level', fewer⟩ := level.advanceSlot good a_inside le_rfl small.le before
      fun d low less _ => absurd (level.le.trans low) (Nat.not_le.mpr less)
    rw [found, ok_bind, moved, ok_bind]
    exact ⟨slots', tally, top, pivot, _, rfl, reached, level', small.le, contribs, hits, fewer⟩

end Level

/-! ## Block bounds -/

/-- No contribution of the list exceeds `bound` from the pivot to the end of its block. -/
structure Blocked (sc : Scorer) (clauses : List Clause) (ix : LexicalIndex) (pivot : Nat) (slot : Slot) (bound : ℚ) :
    Prop where
  nonneg : 0 ≤ bound
  ends : ∃ last, slot.cur.blockLast ix slot.info = .ok last ∧ pivot ≤ last ∧ last < kEnd ∧
    ∀ d, pivot ≤ d → d ≤ last → gainAt sc clauses slot.canon d ≤ bound

def Slot.place (slot : Slot) : Nat × Nat := (slot.doc, slot.canon)

theorem remaining_places {slots' : List Slot} (same : slots'.map Slot.place = slots.map Slot.place) :
    remaining clauses slots' = remaining clauses slots := by
  have places := congrArg (fun places : List (Nat × Nat) =>
    (places.map fun place => ((clauses[place.2]?.map Clause.docs).getD []).countP fun d => decide (place.1 ≤ d)).sum)
    same
  simp only [List.map_map] at places
  exact places

/-- Only the documents and the clauses of the lists count. -/
theorem Level.of_places (level : Level sc clauses top F G slots) {slots' : List Slot}
    (same : slots'.map Slot.place = slots.map Slot.place) (on : ∀ slot ∈ slots', slot.On clauses G F) :
    Level sc clauses top F G slots' where
  canons := by
    have canons : (slots'.map Slot.place).map Prod.snd = (slots.map Slot.place).map Prod.snd := by rw [same]
    rw [List.map_map, List.map_map] at canons
    exact (List.Perm.of_eq canons).trans level.canons
  on := on
  sorted := by
    have sorted : (slots.map Slot.place).Pairwise fun a b => a.1 ≤ b.1 := List.pairwise_map.mpr level.sorted
    rw [← same] at sorted
    rw [List.pairwise_map] at sorted
    exact sorted
  le := level.le
  out := level.out
  behind := by
    rintro ⟨slot, mem, lags⟩
    have mem' : slot.place ∈ slots.map Slot.place := same ▸ List.mem_map_of_mem mem
    obtain ⟨slot', mem', eq⟩ := List.mem_map.mp mem'
    have sums : lagSum clauses F slots' = lagSum clauses F slots := by
      have places := congrArg
        (fun places : List (Nat × Nat) => (places.map fun place => if place.1 < F then ubAt clauses place.2 else 0).sum) same
      simp only [List.map_map] at places
      exact places
    rw [sums]
    exact level.behind ⟨slot', mem', (congrArg Prod.fst eq).trans_lt lags⟩

section Blocks

variable (good : ∀ c ∈ clauses, c.Good sc P ix codec) {pivot : Nat}
include good

theorem shallowAll_spec (on : ∀ slot ∈ slots, slot.On clauses G F) (low : F ≤ pivot) (small : pivot < kEnd)
    (before : ∀ slot ∈ slots, slot.doc ≤ pivot) (s : ℚ) :
    ∃ slots' bounds, shallowAll ix sc pivot slots s = .ok (slots', s + bounds.sum) ∧
      slots'.map Slot.place = slots.map Slot.place ∧ (∀ slot ∈ slots', slot.On clauses G pivot) ∧
      List.Forall₂ (Blocked sc clauses ix pivot) slots' bounds := by
  induction slots generalizing s with
  | nil => exact ⟨[], [], by rw [List.sum_nil, add_zero]; rfl, rfl, List.forall_mem_nil _, .nil⟩
  | cons slot rest ih =>
      obtain ⟨⟨c, found, stands⟩, on⟩ := List.forall_mem_cons.mp on
      obtain ⟨first, before⟩ := List.forall_mem_cons.mp before
      have c_good := good c (List.mem_of_getElem? found)
      obtain ⟨slot', moved, stands', doc, canon, block⟩ := stands.shallowNext_at c_good low first
      have found' : clauses[slot'.canon]? = some c := canon ▸ found
      have gain_eq (d : Nat) : gainAt sc clauses slot'.canon d = c.gain sc d := by
        rw [gainAt, found']
        rfl
      have places : slot'.place = slot.place := by rw [Slot.place, Slot.place, doc, canon]
      rw [shallowAll, moved, ok_bind]
      rcases block with ⟨past, ends, exhausted⟩ | ⟨valid, last, bound, ends, last_lt, le_last, read, nonneg, bounded⟩
      · obtain ⟨rest', bounds, run, same, rest_on, blocked⟩ := ih on before s
        rw [if_neg (by rw [past]; exact Bool.false_ne_true)]
        refine ⟨slot' :: rest', 0 :: bounds, ?_, by rw [List.map_cons, List.map_cons, places, same],
          List.forall_mem_cons.mpr ⟨⟨c, found', stands'⟩, rest_on⟩, .cons ⟨le_rfl, kEnd - 1, ends, by omega, by decide,
            fun d low _ => ?_⟩ blocked⟩
        · rw [List.sum_cons, zero_add]
          show (shallowAll ix sc pivot rest s >>= _) = _
          rw [run]
          rfl
        · rw [gain_eq, Clause.gain, if_neg fun mem => absurd (exhausted d mem) (Nat.not_lt.mpr low)]
      · obtain ⟨rest', bounds, run, same, rest_on, blocked⟩ :=
          ih on before (s + sc.bound slot'.term.weight bound)
        rw [if_pos valid, read, ok_bind]
        refine ⟨slot' :: rest', sc.bound slot'.term.weight bound :: bounds, ?_,
          by rw [List.map_cons, List.map_cons, places, same],
          List.forall_mem_cons.mpr ⟨⟨c, found', stands'⟩, rest_on⟩, .cons ⟨nonneg, last, ends, le_last, last_lt,
            fun d low high => ?_⟩ blocked⟩
        · rw [List.sum_cons, ← add_assoc]
          show (shallowAll ix sc pivot rest (s + sc.bound slot'.term.weight bound) >>= _) = _
          rw [run]
          rfl
        · rw [gain_eq]
          by_cases mem : d ∈ c.docs
          · exact bounded d mem low high
          · rw [Clause.gain, if_neg mem]
            exact nonneg

omit good in
theorem nextBlock_spec {bounds : List ℚ} (blocked : List.Forall₂ (Blocked sc clauses ix pivot) slots bounds)
    (next : Nat) : ∃ r, nextBlock ix slots next = .ok r ∧ r ≤ next ∧ (pivot < next → pivot < r) ∧
      ∀ d, pivot ≤ d → d < r → (slots.map fun slot => gainAt sc clauses slot.canon d).sum ≤ bounds.sum := by
  induction blocked generalizing next with
  | nil => exact ⟨next, rfl, le_rfl, id, fun d _ _ => le_rfl⟩
  | cons block _ ih =>
      obtain ⟨last, ends, low, small, bounded⟩ := block.ends
      have fits : u32 (last + 1) = last + 1 := Nat.mod_eq_of_lt (by have : kEnd = 2 ^ 32 - 1 := rfl; omega)
      obtain ⟨r, run, le, past, sums⟩ := ih (min next (last + 1))
      refine ⟨r, ?_, le.trans (Nat.min_le_left _ _), fun less => past (by omega), fun d atLeast before => ?_⟩
      · rw [nextBlock, ends, ok_bind, fits, run]
      · rw [List.map_cons, List.sum_cons, List.sum_cons]
        have inside : d ≤ last := by omega
        exact add_le_add (bounded d atLeast inside) (sums d atLeast before)

omit good in
/-- **The target of a skip.** -/
theorem skipTarget_spec {p : Nat} {bounds : List ℚ} (sorted : slots.Pairwise Slot.le)
    (blocked : List.Forall₂ (Blocked sc clauses ix pivot) (slots.take (p + 1)) bounds) (small : pivot < kEnd)
    (past : ∀ slot ∈ slots.drop (p + 1), pivot < slot.doc) :
    ∃ next, skipTarget ix slots pivot p = .ok next ∧ pivot < next ∧ next ≤ kEnd ∧
      (∀ slot ∈ slots.drop (p + 1), next ≤ slot.doc) ∧
      ∀ d, pivot ≤ d → d < next →
        ((slots.take (p + 1)).map fun slot => gainAt sc clauses slot.canon d).sum ≤ bounds.sum := by
  obtain ⟨r, run, le, beyond, sums⟩ := nextBlock_spec blocked kEnd
  have beyond := beyond small
  rw [skipTarget, run, ok_bind]
  rcases Nat.lt_or_ge (p + 1) slots.length with inside | atEnd
  · have after : pivot < slots[p + 1].doc :=
      past _ (by rw [List.drop_eq_getElem_cons inside]; exact List.mem_cons_self ..)
    rw [List.getElem?_eq_getElem inside]
    have both : pivot < min r slots[p + 1].doc := lt_min beyond after
    dsimp only
    rw [if_neg (Nat.not_le.mpr both)]
    refine ⟨_, rfl, both, (min_le_left _ _).trans le, fun slot mem => ?_, fun d low less => ?_⟩
    · exact (min_le_right _ _).trans (sorted_le_drop sorted inside slot mem)
    · exact sums d low (lt_min_iff.mp less).1
  · rw [List.getElem?_eq_none atEnd]
    dsimp only
    rw [if_neg (by omega), List.drop_eq_nil_of_le atEnd]
    exact ⟨_, rfl, beyond, le, List.forall_mem_nil _, sums⟩

omit good in
theorem greatest_lt (slots : List Slot) (i : Nat) {adv n : Nat} (ub : ℚ) (inside : adv < n)
    (fits : i + slots.length ≤ n) : greatest slots i adv ub < n := by
  induction slots generalizing i adv ub with
  | nil => exact inside
  | cons slot rest ih =>
      rw [List.length_cons] at fits
      rw [greatest]
      split_ifs
      · exact ih (i + 1) _ (by omega) (by omega)
      · exact ih (i + 1) _ inside (by omega)

/-- **A block-max skip.**  The documents up to the target cannot enter. -/
theorem Level.skip_blocks {p : Nat} {bounds : List ℚ} (level : Level sc clauses top pivot G slots)
    (reached : Reached (matched clauses) (score sc clauses) k top pivot) (small : pivot < kEnd)
    (inside : p < slots.length) (at_pivot : slots[p].doc = pivot)
    (past : ∀ slot ∈ slots.drop (p + 1), pivot < slot.doc)
    (blocked : List.Forall₂ (Blocked sc clauses ix pivot) (slots.take (p + 1)) bounds)
    (low : cannotBeat top (0 + bounds.sum) = true) (ub : ℚ) :
    ∃ next slots' G', skipTarget ix slots pivot p = .ok next ∧
      HybridSearch.Engine.advanceSlot P ix codec slots (greatest (slots.take (p + 1)) 0 p ub) next = .ok slots' ∧
      Level sc clauses top pivot G' slots' ∧ remaining clauses slots' < remaining clauses slots := by
  obtain ⟨next, target, beyond, le, after, sums⟩ := skipTarget_spec level.sorted blocked small past
  have adv_lt : greatest (slots.take (p + 1)) 0 p ub < p + 1 :=
    greatest_lt _ 0 ub (Nat.lt_succ_self p) (by rw [List.length_take]; omega)
  set adv := greatest (slots.take (p + 1)) 0 p ub with adv_eq
  have adv_inside : adv < slots.length := by omega
  have adv_le : slots[adv].doc ≤ pivot := by
    have := sorted_take_le level.sorted inside slots[adv] (List.mem_take_iff_getElem.mpr ⟨adv, by omega, rfl⟩)
    rwa [at_pivot] at this
  obtain ⟨slots', moved, level', fewer⟩ := level.advanceSlot good adv_inside beyond.le le (adv_le.trans_lt beyond)
    fun d atLeast before hit => by
      have le_sum : score sc clauses d ≤ bounds.sum := by
        rw [level.score_take atLeast fun slot mem => before.trans_le (after slot mem)]
        exact sums d (level.le.trans atLeast) before
      rw [zero_add] at low
      exact excluded_of_bound reached low ((score_nonneg good d).trans le_sum) le_sum
  exact ⟨next, slots', _, target, moved, level', fewer⟩

end Blocks

/-! ## run_wand -/

/-- The lists on the pivot end where `pivotEnd` says. -/
theorem pivotEnd_spec {pivot p : Nat} (sorted : slots.Pairwise Slot.le) (inside : p < slots.length)
    (at_pivot : slots[p].doc = pivot) :
    ∃ _ : pivotEnd slots pivot p < slots.length, slots[pivotEnd slots pivot p].doc = pivot ∧
      ∀ slot ∈ slots.drop (pivotEnd slots pivot p + 1), pivot < slot.doc := by
  have run (rest : List Slot) (sorted : rest.Pairwise Slot.le) (ahead : ∀ slot ∈ rest, pivot ≤ slot.doc) :
      (∀ slot ∈ rest.drop (rest.takeWhile fun slot => decide (slot.doc = pivot)).length, pivot < slot.doc) := by
    induction rest with
    | nil => exact List.forall_mem_nil _
    | cons slot rest ih =>
        obtain ⟨least, sorted⟩ := List.pairwise_cons.mp sorted
        obtain ⟨first, ahead⟩ := List.forall_mem_cons.mp ahead
        rw [List.takeWhile_cons]
        by_cases same : slot.doc = pivot
        · rw [if_pos (decide_eq_true same), List.length_cons, List.drop_succ_cons]
          exact ih sorted ahead
        · rw [if_neg (by simpa using same)]
          have past : pivot < slot.doc := lt_of_le_of_ne first fun eq => same eq.symm
          exact List.forall_mem_cons.mpr ⟨past, fun other mem => past.trans_le (least other mem)⟩
  have ahead : ∀ slot ∈ slots.drop (p + 1), pivot ≤ slot.doc := fun slot mem => by
    have le := sorted_le_drop sorted inside slot
    rw [at_pivot, List.drop_eq_getElem_cons inside] at le
    exact le (List.mem_cons_of_mem _ mem)
  have past := run (slots.drop (p + 1)) (sorted.sublist (List.drop_sublist _ _)) ahead
  rw [pivotEnd]
  set n := ((slots.drop (p + 1)).takeWhile fun slot => decide (slot.doc = pivot)).length with n_eq
  have le : n ≤ (slots.drop (p + 1)).length := (List.takeWhile_sublist _).length_le
  rw [List.length_drop] at le
  rw [List.drop_drop, show p + 1 + n = p + n + 1 by omega] at past
  refine ⟨by omega, ?_, past⟩
  rcases Nat.eq_zero_or_pos n with alone | pivot_pos
  · simp only [alone, Nat.add_zero]
    exact at_pivot
  · have at_last : n - 1 < ((slots.drop (p + 1)).takeWhile fun slot => decide (slot.doc = pivot)).length := by omega
    have hit := List.all_eq_true.mp List.all_takeWhile _ (List.getElem_mem at_last)
    rw [(List.takeWhile_prefix _).getElem at_last, List.getElem_drop] at hit
    have hit := of_decide_eq_true hit
    simp only [show p + 1 + (n - 1) = p + n by omega] at hit
    exact hit

theorem wandLoop_ends (good : ∀ c ∈ clauses, c.Good sc P ix codec) {blockMax : Bool} {fuel : Nat} {tally : Tally}
    {dl : Deadline} (reached : Reached (matched clauses) (score sc clauses) k top F)
    (level : Level sc clauses top F G slots)
    (contribs : tally.contrib.length = clauses.length) (hits : tally.hit.length = clauses.length)
    (le_end : F ≤ kEnd) (enough : remaining clauses slots < fuel) :
    ∃ result, wandLoop P ix codec sc blockMax fuel slots tally top dl = .ok result ∧
      Ended sc clauses k dl result := by
  induction fuel generalizing slots tally top dl F G with
  | zero => omega
  | succ fuel ih =>
      rw [wandLoop]
      rcases ticked : dl.expiredEvery kDeadlineEvery with ⟨fired, dl'⟩
      cases fired with
      | true => exact ⟨_, rfl, .cut reached ticked⟩
      | false =>
          obtain ⟨m, le, before, found⟩ := findPivot_spec top 0 0 slots
          simp only [Bool.false_eq_true, if_false]
          cases pivot_eq : findPivot top 0 0 slots with
          | none =>
              rw [pivot_eq] at found
              refine ⟨_, rfl, .done (reached.skip le_end fun d low less hit => ?_) dl⟩
              refine level.excluded good reached before low (fun slot mem => ?_) hit
              have m_lt : m < slots.length := by
                by_contra beyond
                rw [List.drop_eq_nil_of_le (Nat.not_lt.mp beyond)] at mem
                cases mem
              have past_end : slots[m].doc = kEnd := found _ (List.getElem?_eq_getElem m_lt)
              exact less.trans_le (past_end ▸ sorted_le_drop level.sorted m_lt slot mem)
          | some p =>
              rw [pivot_eq] at found
              obtain ⟨p_eq, pivot_pos, high⟩ := found
              rw [Nat.zero_add] at p_eq
              subst p_eq
              obtain ⟨pivot_slot, at_p, not_end⟩ := pivot_pos
              obtain ⟨inside, rfl⟩ := List.getElem?_eq_some_iff.mp at_p
              obtain ⟨reached', level'⟩ := level.to_pivot good reached inside before high
              have small : slots[p].doc < kEnd :=
                lt_of_le_of_ne ((level.on _ (List.getElem_mem inside)).doc_le good) not_end
              obtain ⟨end_inside, end_eq, past⟩ := pivotEnd_spec level.sorted inside rfl
              set pivot := slots[p].doc with pivot_def
              set q := pivotEnd slots pivot p with q_def
              dsimp only
              rw [at?_eq_ok at_p, ok_bind]
              cases blockMax with
              | false =>
                  obtain ⟨slots', tally', top', F', G', run, reached'', level'', le', contribs', hits', fewer⟩ :=
                    level'.moveOn good reached' small end_inside end_eq contribs hits
                  obtain ⟨result, ran, ended⟩ := ih reached'' level'' contribs' hits' le' (by omega)
                  simp only [Bool.false_eq_true, if_false]
                  rw [run, ok_bind]
                  exact ⟨result, ran, ended.later ticked⟩
              | true =>
                  have first_on : ∀ slot ∈ slots.take (q + 1), slot.On clauses (max G pivot) pivot := fun slot mem =>
                    level'.on slot (List.mem_of_mem_take mem)
                  obtain ⟨front, bounds, shallow_eq, places, front_on, blocked⟩ :=
                    shallowAll_spec good first_on le_rfl small
                      (fun slot mem => (sorted_take_le level.sorted end_inside slot mem).trans_eq end_eq) 0
                  have front_length : front.length = q + 1 := by
                    have lengths := congrArg List.length places
                    rw [List.length_map, List.length_map, List.length_take] at lengths
                    omega
                  have take_eq : (front ++ slots.drop (q + 1)).take (q + 1) = front := List.take_left' front_length
                  have drop_eq : (front ++ slots.drop (q + 1)).drop (q + 1) = slots.drop (q + 1) :=
                    List.drop_left' front_length
                  have same : (front ++ slots.drop (q + 1)).map Slot.place = slots.map Slot.place := by
                    rw [List.map_append, places, ← List.map_append, List.take_append_drop]
                  have shallow_level := level'.of_places same fun slot mem => by
                    rcases List.mem_append.mp mem with first | rest
                    · exact front_on slot first
                    · exact level'.on slot (List.mem_of_mem_drop rest)
                  have still : remaining clauses (front ++ slots.drop (q + 1)) = remaining clauses slots :=
                    remaining_places same
                  set shallowed := front ++ slots.drop (q + 1) with shallowed_def
                  have q_inside : q < shallowed.length := by
                    have lengths := congrArg List.length same
                    rw [List.length_map, List.length_map] at lengths
                    omega
                  have q_doc : shallowed[q].doc = pivot := by
                    have at_q := congrArg (fun places => places[q]?.map Prod.fst) same
                    simp only [List.getElem?_map, List.getElem?_eq_getElem q_inside,
                      List.getElem?_eq_getElem end_inside, Option.map_some, Option.some.injEq] at at_q
                    exact at_q.trans end_eq
                  simp only [if_true]
                  rw [shallow_eq, ok_bind]
                  dsimp only
                  rw [← shallowed_def]
                  by_cases low : cannotBeat top (0 + bounds.sum) = true
                  · obtain ⟨next, slots', G', target, moved, level'', fewer⟩ :=
                      shallow_level.skip_blocks good reached' small q_inside q_doc (by rw [drop_eq]; exact past)
                        (by rw [take_eq]; exact blocked) low shallowed[q].term.ub
                    obtain ⟨result, ran, ended⟩ := ih reached' level'' contribs hits small.le (by omega)
                    rw [if_pos low, target, ok_bind, at?_eq_ok (List.getElem?_eq_getElem q_inside), ok_bind, moved,
                      ok_bind]
                    exact ⟨result, ran, ended.later ticked⟩
                  · obtain ⟨slots', tally', top', F', G', run, reached'', level'', le', contribs', hits', fewer⟩ :=
                      shallow_level.moveOn good reached' small q_inside q_doc contribs hits
                    obtain ⟨result, ran, ended⟩ := ih reached'' level'' contribs' hits' le' (by omega)
                    rw [if_neg low, run, ok_bind]
                    exact ⟨result, ran, ended.later ticked⟩

end Safety

end HybridSearch.Engine
