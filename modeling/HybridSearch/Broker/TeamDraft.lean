/-
# Broker.TeamDraft -- the structure of a team-draft interleaving (Interleaving.cs)

Which document a team takes depends on the list shown so far only: it is the first of the
team's ranking that is not in it (`advancePastUsed_eq`).  `Drafted` says of a list that all
its positions were filled so, and that the teams were kept even while both could pick.
`loop_holds` carries it through the loop; the order of each team's documents, the length
and the symmetry of the teams follow.
-/
import HybridSearch.Broker.Interleaving
import Mathlib.Data.Finset.Card
import Mathlib.Data.Finset.Dedup
import Mathlib.Data.List.Induction
import Mathlib.Data.List.Nodup

namespace HybridSearch.Broker.Interleaving

set_option autoImplicit false

variable {ι : Type} [DecidableEq ι]

/-- The first document of a ranking that is not shown yet. -/
def firstUnused (ranking used : List ι) : Option ι := ranking.find? fun d => decide (d ∉ used)

def docIds (docs : List (InterleavedDoc ι)) : List ι := docs.map InterleavedDoc.docId

def rankingOf (a b : List ι) : Team → List ι
  | .A => a
  | .B => b

def teamSize (team : Team) (docs : List (InterleavedDoc ι)) : Nat :=
  docs.countP fun d => decide (d.team = team)

/-- The documents of one team, as they are shown. -/
def teamDocs (team : Team) (docs : List (InterleavedDoc ι)) : List ι :=
  docIds (docs.filter fun d => decide (d.team = team))

/-- The team sizes differ by at most one. -/
def Even (docs : List (InterleavedDoc ι)) : Prop :=
  teamSize .A docs ≤ teamSize .B docs + 1 ∧ teamSize .B docs ≤ teamSize .A docs + 1

/-- Both rankings have a document that is not shown yet. -/
def BothLeft (a b : List ι) (docs : List (InterleavedDoc ι)) : Prop :=
  (∃ d ∈ a, d ∉ docIds docs) ∧ ∃ d ∈ b, d ∉ docIds docs

structure Drafted (a b : List ι) (docs : List (InterleavedDoc ι)) : Prop where
  nodup : (docIds docs).Nodup
  picked : ∀ i d, docs[i]? = some d →
    firstUnused (rankingOf a b d.team) (docIds (docs.take i)) = some d.docId
  even : ∀ n < docs.length, BothLeft a b (docs.take n) → Even (docs.take (n + 1))

/-! ## Cursors -/

theorem firstUnused_eq_none {ranking used : List ι} :
    firstUnused ranking used = none ↔ ∀ d ∈ ranking, d ∈ used := by
  rw [firstUnused, List.find?_eq_none]
  exact forall₂_congr fun d _ => by rw [decide_eq_true_eq, not_not]

theorem firstUnused_eq_some {ranking used : List ι} {d : ι} :
    firstUnused ranking used = some d ↔
      d ∉ used ∧ ∃ front back, ranking = front ++ d :: back ∧ ∀ e ∈ front, e ∈ used := by
  rw [firstUnused, List.find?_eq_some_iff_append, decide_eq_true_eq]
  refine and_congr_right fun _ => exists₂_congr fun front back => and_congr_right fun _ => ?_
  exact forall₂_congr fun e _ => by rw [Bool.not_eq_true', decide_eq_false_iff_not, not_not]

omit [DecidableEq ι] in
theorem takeWhile_stop (p : ι → Bool) (l : List ι) :
    l[(l.takeWhile p).length]? = l.find? (fun d => !p d) ∧
      ∀ d ∈ l.take (l.takeWhile p).length, p d = true := by
  induction l with
  | nil => exact ⟨rfl, fun d mem => by cases mem⟩
  | cons x l ih =>
      by_cases holds : p x = true
      · rw [List.takeWhile_cons_of_pos holds, List.length_cons, List.getElem?_cons_succ, ih.1,
          List.find?_cons_of_neg (by rw [holds]; exact Bool.false_ne_true)]
        refine ⟨rfl, fun d mem => ?_⟩
        rcases List.mem_cons.mp mem with rfl | later
        · exact holds
        · exact ih.2 d later
      · rw [List.takeWhile_cons_of_neg holds, List.find?_cons_of_pos (by simpa using holds)]
        exact ⟨rfl, fun d mem => by cases mem⟩

/-- **The cursor of a team stops at its first unused document.** -/
theorem advancePastUsed_eq {ranking used : List ι} {i : Nat} (behind : ∀ d ∈ ranking.take i, d ∈ used) :
    ranking[advancePastUsed ranking i used]? = firstUnused ranking used ∧
      ∀ d ∈ ranking.take (advancePastUsed ranking i used), d ∈ used := by
  obtain ⟨stop, passed⟩ := takeWhile_stop (fun d => decide (d ∈ used)) (ranking.drop i)
  have front : (ranking.take i).find? (fun d => decide (d ∉ used)) = none := by
    rw [List.find?_eq_none]
    exact fun d mem => by rw [decide_eq_true_eq, not_not]; exact behind d mem
  have rest : (ranking.drop i).find? (fun d => !decide (d ∈ used)) = firstUnused ranking used := by
    rw [firstUnused]
    conv_rhs => rw [← List.take_append_drop i ranking]
    rw [List.find?_append, front, Option.none_or]
    exact congrArg (fun p => List.find? p _) (funext fun d => (decide_not).symm)
  rw [List.getElem?_drop, rest] at stop
  refine ⟨stop, fun d mem => ?_⟩
  rw [advancePastUsed, List.take_add, List.mem_append] at mem
  exact mem.elim (behind d) fun later => of_decide_eq_true (passed d later)

/-! ## The draft -/

variable {a b : List ι} {coin : Nat → Bool}

omit [DecidableEq ι] in
theorem docIds_snoc (docs : List (InterleavedDoc ι)) (d : InterleavedDoc ι) :
    docIds (docs ++ [d]) = docIds docs ++ [d.docId] := List.map_append

omit [DecidableEq ι] in
theorem BothLeft.front {docs : List (InterleavedDoc ι)} {n : Nat} (left : BothLeft a b docs) :
    BothLeft a b (docs.take n) := by
  have sub {d : ι} (new : d ∉ docIds docs) : d ∉ docIds (docs.take n) := fun mem => by
    rw [docIds, List.map_take] at mem
    exact new (List.mem_of_mem_take mem)
  exact ⟨left.1.imp fun d both => ⟨both.1, sub both.2⟩, left.2.imp fun d both => ⟨both.1, sub both.2⟩⟩

/-- While both can pick, the teams are even. -/
theorem Drafted.now {docs : List (InterleavedDoc ι)} (drafted : Drafted a b docs)
    (left : BothLeft a b docs) : Even docs := by
  rcases Nat.eq_zero_or_pos docs.length with empty | positive
  · rw [List.length_eq_zero_iff.mp empty]
    exact ⟨Nat.zero_le _, Nat.zero_le _⟩
  · have even := drafted.even (docs.length - 1) (by omega) left.front
    rwa [Nat.sub_add_cancel positive, List.take_length] at even

theorem Drafted.snoc {docs : List (InterleavedDoc ι)} (drafted : Drafted a b docs) {d : ι} {team : Team}
    (first : firstUnused (rankingOf a b team) (docIds docs) = some d)
    (even : BothLeft a b docs → Even (docs ++ [⟨d, team⟩])) : Drafted a b (docs ++ [⟨d, team⟩]) where
  nodup := by
    rw [docIds_snoc]
    refine List.nodup_append.mpr ⟨drafted.nodup, List.nodup_singleton d, fun x mem y last same => ?_⟩
    have new : d ∉ docIds docs := (firstUnused_eq_some.mp first).1
    have same' : x = d := same.trans (List.mem_singleton.mp last)
    exact new (same' ▸ mem)
  picked i e pick_eq := by
    rcases Nat.lt_trichotomy i docs.length with inside | rfl | past
    · rw [List.getElem?_append_left inside] at pick_eq
      rw [List.take_append_of_le_length inside.le]
      exact drafted.picked i e pick_eq
    · rw [List.getElem?_concat_length] at pick_eq
      rw [← Option.some.inj pick_eq, List.take_left]
      exact first
    · rw [List.getElem?_eq_none (by rw [List.length_append, List.length_singleton]; omega)] at pick_eq
      cases pick_eq
  even n n_lt left := by
    rw [List.length_append, List.length_singleton] at n_lt
    rw [List.take_append_of_le_length (by omega)] at left
    rcases Nat.lt_or_ge n docs.length with inside | last
    · rw [List.take_append_of_le_length inside]
      exact drafted.even n inside left
    · rw [List.take_of_length_le (by rw [List.length_append, List.length_singleton]; omega)]
      rw [List.take_of_length_le last] at left
      exact even left

omit [DecidableEq ι] in
theorem teamDocs_snoc (team : Team) (docs : List (InterleavedDoc ι)) (d : InterleavedDoc ι) :
    teamDocs team (docs ++ [d]) = teamDocs team docs ++ if d.team = team then [d.docId] else [] := by
  rw [teamDocs, teamDocs, List.filter_append, docIds, List.map_append]
  by_cases same : d.team = team
  · simp [docIds, same]
  · simp [docIds, same]

theorem Drafted.init {docs : List (InterleavedDoc ι)} {d : InterleavedDoc ι}
    (drafted : Drafted a b (docs ++ [d])) : Drafted a b docs where
  nodup := by
    have nodup := drafted.nodup
    rw [docIds_snoc] at nodup
    exact (List.nodup_append.mp nodup).1
  picked i e pick_eq := by
    have inside : i < docs.length := (List.getElem?_eq_some_iff.mp pick_eq).1
    have picked := drafted.picked i e (by rw [List.getElem?_append_left inside, pick_eq])
    rwa [List.take_append_of_le_length inside.le] at picked
  even n n_lt left := by
    have even := drafted.even n (by rw [List.length_append]; omega)
      (by rwa [List.take_append_of_le_length n_lt.le])
    rwa [List.take_append_of_le_length n_lt] at even

theorem Drafted.last {docs : List (InterleavedDoc ι)} {d : InterleavedDoc ι}
    (drafted : Drafted a b (docs ++ [d])) :
    firstUnused (rankingOf a b d.team) (docIds docs) = some d.docId := by
  have picked := drafted.picked docs.length d (by rw [List.getElem?_concat_length])
  rwa [List.take_left] at picked

/-- A team's documents are in the stretch of its ranking that is shown already. -/
theorem Drafted.shown {docs : List (InterleavedDoc ι)} (drafted : Drafted a b docs) (team : Team) :
    ∃ front back, rankingOf a b team = front ++ back ∧ (∀ d ∈ front, d ∈ docIds docs) ∧
      (teamDocs team docs).Sublist front := by
  induction docs using List.reverseRecOn with
  | nil => exact ⟨[], _, rfl, List.forall_mem_nil _, List.nil_sublist _⟩
  | append_singleton docs d ih =>
      obtain ⟨front, back, split, known, sub⟩ := ih drafted.init
      rw [teamDocs_snoc, docIds_snoc]
      by_cases same : d.team = team
      · -- the last document stands behind the stretch, since all of the stretch was shown
        have first := drafted.last
        rw [same, split, firstUnused, List.find?_append, List.find?_eq_none.mpr (by simpa using known),
          Option.none_or, ← firstUnused, firstUnused_eq_some] at first
        obtain ⟨-, front', back', split', known'⟩ := first
        refine ⟨front ++ (front' ++ [d.docId]), back', by rw [split, split']; simp, fun e mem => ?_, ?_⟩
        · rcases List.mem_append.mp mem with old | new
          · exact List.mem_append_left _ (known e old)
          · rcases List.mem_append.mp new with old | last
            · exact List.mem_append_left _ (known' e old)
            · exact List.mem_append_right _ last
        · rw [if_pos same]
          exact sub.append (List.sublist_append_right _ _)
      · rw [if_neg same, List.append_nil]
        exact ⟨front, back, split, fun e mem => List.mem_append_left _ (known e mem), sub⟩

/-- **Each team's documents appear in its ranking's order.** -/
theorem Drafted.in_order {docs : List (InterleavedDoc ι)} (drafted : Drafted a b docs) (team : Team) :
    (teamDocs team docs).Sublist (rankingOf a b team) := by
  obtain ⟨front, back, split, -, sub⟩ := drafted.shown team
  rw [split]
  exact sub.trans (List.sublist_append_left front back)

/-! ## The loop -/

structure Holds (a b : List ι) (st : State ι) : Prop where
  used : st.used = docIds st.result
  drafted : Drafted a b st.result
  behindA : ∀ d ∈ a.take st.ia, d ∈ st.used
  behindB : ∀ d ∈ b.take st.ib, d ∈ st.used
  sizeA : st.sizeA = teamSize .A st.result
  sizeB : st.sizeB = teamSize .B st.result

theorem initial_holds : Holds a b (initial : State ι) where
  used := rfl
  drafted :=
    { nodup := List.nodup_nil
      picked := fun i d pick_eq => by cases pick_eq
      even := fun n n_lt => absurd n_lt (Nat.not_lt_zero n) }
  behindA d mem := by rw [initial, List.take_zero] at mem; cases mem
  behindB d mem := by rw [initial, List.take_zero] at mem; cases mem
  sizeA := rfl
  sizeB := rfl

section Cede
omit [DecidableEq ι]

theorem cede_A {pick : Team} {x y : Option ι} {d : ι} (ceded : cede pick x y = some (.A, d)) :
    x = some d ∧ (y.isSome → pick = .A) := by
  cases pick <;> cases x <;> cases y <;> simp_all [cede]

theorem cede_B {pick : Team} {x y : Option ι} {d : ι} (ceded : cede pick x y = some (.B, d)) :
    y = some d ∧ (x.isSome → pick = .B) := by
  cases pick <;> cases x <;> cases y <;> simp_all [cede]

theorem cede_none {pick : Team} {x y : Option ι} (ceded : cede pick x y = none) :
    x = none ∧ y = none := by
  cases pick <;> cases x <;> cases y <;> simp_all [cede]

/-- The team that picks is not the larger one. -/
theorem pickTeam_A {st : State ι} (picked : (pickTeam coin st).1 = .A) : st.sizeA ≤ st.sizeB := by
  rw [pickTeam] at picked
  split_ifs at picked <;> omega

theorem pickTeam_B {st : State ι} (picked : (pickTeam coin st).1 = .B) : st.sizeB ≤ st.sizeA := by
  rw [pickTeam] at picked
  split_ifs at picked <;> omega

theorem teamSize_snoc (team : Team) (docs : List (InterleavedDoc ι)) (d : InterleavedDoc ι) :
    teamSize team (docs ++ [d]) = teamSize team docs + if d.team = team then 1 else 0 := by
  rw [teamSize, List.countP_append, List.countP_singleton]
  simp [teamSize]

/-- A cursor that steps over the document its team picks stays behind the shown ones. -/
theorem behind_succ {ranking used : List ι} {i : Nat} {d : ι} (pick_eq : ranking[i]? = some d)
    (behind : ∀ e ∈ ranking.take i, e ∈ used) : ∀ e ∈ ranking.take (i + 1), e ∈ used ++ [d] := by
  intro e mem
  rw [List.take_add_one, pick_eq] at mem
  rcases List.mem_append.mp mem with old | new
  · exact List.mem_append_left _ (behind e old)
  · exact List.mem_append_right _ new

end Cede

theorem BothLeft.isSome {docs : List (InterleavedDoc ι)} (left : BothLeft a b docs) :
    (firstUnused a (docIds docs)).isSome ∧ (firstUnused b (docIds docs)).isSome := by
  obtain ⟨⟨d, in_a, new⟩, e, in_b, new'⟩ := left
  constructor
  · rw [Option.isSome_iff_ne_none]
    exact fun none => new (firstUnused_eq_none.mp none d in_a)
  · rw [Option.isSome_iff_ne_none]
    exact fun none => new' (firstUnused_eq_none.mp none e in_b)

/-- **One position**: nothing is left, or a team takes its first unused document. -/
theorem loop_step {st : State ι} (coin : Nat → Bool) (holds : Holds a b st) (n : Nat) :
    (firstUnused a st.used = none ∧ firstUnused b st.used = none ∧
        (loop a b coin (n + 1) st).result = st.result ∧ Holds a b (loop a b coin (n + 1) st)) ∨
      ∃ st', loop a b coin (n + 1) st = loop a b coin n st' ∧ Holds a b st' ∧
        st'.result.length = st.result.length + 1 := by
  obtain ⟨at_a, behindA⟩ := advancePastUsed_eq holds.behindA
  obtain ⟨at_b, behindB⟩ := advancePastUsed_eq holds.behindB
  rw [loop]
  simp only [at_a, at_b]
  split_ifs with ended
  · left
    rw [Option.isNone_iff_eq_none, Option.isNone_iff_eq_none] at ended
    exact ⟨ended.1, ended.2, rfl, holds.used, holds.drafted, behindA, behindB, holds.sizeA, holds.sizeB⟩
  · right
    have even (left : BothLeft a b st.result) : Even st.result := holds.drafted.now left
    rw [Even, ← holds.sizeA, ← holds.sizeB] at even
    split
    · rename_i ceded
      obtain ⟨none_a, none_b⟩ := cede_none ceded
      exact absurd ⟨Option.isNone_iff_eq_none.mpr none_a, Option.isNone_iff_eq_none.mpr none_b⟩ ended
    · rename_i d ceded
      obtain ⟨first, own⟩ := cede_A ceded
      refine ⟨_, rfl, ⟨?_, ?_, ?_, ?_, ?_, ?_⟩, List.length_append⟩
      · rw [docIds_snoc, holds.used]
      · rw [holds.used] at first own
        refine holds.drafted.snoc first fun left => ?_
        have smaller := pickTeam_A (own left.isSome.2)
        have sizes := even left
        rw [Even, teamSize_snoc, teamSize_snoc, ← holds.sizeA, ← holds.sizeB]
        simp
        omega
      · exact behind_succ (at_a.trans first) behindA
      · exact fun e mem => List.mem_append_left _ (behindB e mem)
      · rw [teamSize_snoc, holds.sizeA]
        rfl
      · rw [teamSize_snoc, holds.sizeB]
        rfl
    · rename_i d ceded
      obtain ⟨first, own⟩ := cede_B ceded
      refine ⟨_, rfl, ⟨?_, ?_, ?_, ?_, ?_, ?_⟩, List.length_append⟩
      · rw [docIds_snoc, holds.used]
      · rw [holds.used] at first own
        refine holds.drafted.snoc first fun left => ?_
        have smaller := pickTeam_B (own left.isSome.1)
        have sizes := even left
        rw [Even, teamSize_snoc, teamSize_snoc, ← holds.sizeA, ← holds.sizeB]
        simp
        omega
      · exact fun e mem => List.mem_append_left _ (behindA e mem)
      · exact behind_succ (at_b.trans first) behindB
      · rw [teamSize_snoc, holds.sizeA]
        rfl
      · rw [teamSize_snoc, holds.sizeB]
        rfl

theorem loop_holds {st : State ι} (holds : Holds a b st) (coin : Nat → Bool) (n : Nat) :
    Holds a b (loop a b coin n st) ∧
      ((loop a b coin n st).result.length = st.result.length + n ∨
        (loop a b coin n st).result.length ≤ st.result.length + n ∧
          firstUnused a (loop a b coin n st).used = none ∧ firstUnused b (loop a b coin n st).used = none) := by
  induction n generalizing st with
  | zero => exact ⟨holds, .inl rfl⟩
  | succ n ih =>
      rcases loop_step coin holds n with ⟨a_none, b_none, same, holds'⟩ | ⟨st', same, holds', longer⟩
      · have used : (loop a b coin (n + 1) st).used = st.used := by
          rw [holds'.used, same, holds.used]
        refine ⟨holds', .inr ⟨?_, used ▸ a_none, used ▸ b_none⟩⟩
        rw [same]
        exact Nat.le_add_right _ _
      · obtain ⟨holds'', ended⟩ := ih holds'
        rw [same]
        rw [longer] at ended
        refine ⟨holds'', ended.imp (fun full => by omega) fun all => ⟨by omega, all.2⟩⟩

/-! ## Symmetry -/

def Team.other : Team → Team
  | .A => .B
  | .B => .A

/-- The variables with the teams in each other's place. -/
def swapped (st : State ι) : State ι where
  result := st.result.map fun d => ⟨d.docId, d.team.other⟩
  used := st.used
  ia := st.ib
  ib := st.ia
  sizeA := st.sizeB
  sizeB := st.sizeA
  drawn := st.drawn

omit [DecidableEq ι] in
@[simp] theorem swapped_ia (st : State ι) : (swapped st).ia = st.ib := rfl

omit [DecidableEq ι] in
@[simp] theorem swapped_ib (st : State ι) : (swapped st).ib = st.ia := rfl

omit [DecidableEq ι] in
@[simp] theorem swapped_used (st : State ι) : (swapped st).used = st.used := rfl

omit [DecidableEq ι] in
theorem pickTeam_swapped (st : State ι) :
    pickTeam (fun i => !coin i) (swapped st) = ((pickTeam coin st).1.other, (pickTeam coin st).2) := by
  rw [pickTeam, pickTeam]
  rcases Nat.lt_trichotomy st.sizeA st.sizeB with less | same | more
  · rw [if_neg (show ¬(swapped st).sizeA < (swapped st).sizeB from Nat.lt_asymm less), if_pos less,
      if_pos (show (swapped st).sizeB < (swapped st).sizeA from less)]
    rfl
  · simp only [swapped, same, Nat.lt_irrefl, if_false]
    cases coin st.drawn <;> rfl
  · rw [if_pos (show (swapped st).sizeA < (swapped st).sizeB from more), if_neg (Nat.lt_asymm more),
      if_pos more]
    rfl

omit [DecidableEq ι] in
theorem cede_swapped (pick : Team) (x y : Option ι) :
    cede pick.other y x = (cede pick x y).map fun taken => (taken.1.other, taken.2) := by
  cases pick <;> cases x <;> cases y <;> rfl

omit [DecidableEq ι] in
theorem swapped_taken (st : State ι) (used : List ι) (d : ι) (team : Team) (ia ib sizeA sizeB drawn : Nat) :
    swapped ⟨st.result ++ [⟨d, team⟩], used, ia, ib, sizeA, sizeB, drawn⟩ =
      ⟨(swapped st).result ++ [⟨d, team.other⟩], used, ib, ia, sizeB, sizeA, drawn⟩ := by
  simp [swapped]

theorem loop_swapped (n : Nat) (st : State ι) :
    loop b a (fun i => !coin i) n (swapped st) = swapped (loop a b coin n st) := by
  induction n generalizing st with
  | zero => rfl
  | succ n ih =>
      rw [loop, loop, pickTeam_swapped]
      simp only [cede_swapped, swapped_ia, swapped_ib, swapped_used]
      by_cases ended : (a[advancePastUsed a st.ia st.used]?).isNone ∧
          (b[advancePastUsed b st.ib st.used]?).isNone
      · rw [if_pos ended, if_pos (And.symm ended)]
        rfl
      · rw [if_neg ended, if_neg (fun both => ended (And.symm both))]
        generalize cede (pickTeam coin st).1 (a[advancePastUsed a st.ia st.used]?)
          (b[advancePastUsed b st.ib st.used]?) = ceded
        rcases ceded with _ | ⟨_ | _, d⟩
        · rfl
        · refine Eq.trans ?_ (ih _)
          exact congrArg (loop b a (fun i => !coin i) n) (swapped_taken st _ d .A ..).symm
        · refine Eq.trans ?_ (ih _)
          exact congrArg (loop b a (fun i => !coin i) n) (swapped_taken st _ d .B ..).symm

/-! ## The interleaving -/

/-- The list that is shown. -/
def shown (a b : List ι) (k : Nat) (coin : Nat → Bool) : List (InterleavedDoc ι) :=
  (interleave a b k coin).result

/-- The documents shown are as many as fit, of those the rankings name. -/
theorem interleave_length (a b : List ι) (k : Nat) (coin : Nat → Bool) :
    (interleave a b k coin).result.length = min k (a ++ b).toFinset.card := by
  obtain ⟨holds, ended⟩ := loop_holds (initial_holds : Holds a b initial) coin k
  rw [← interleave] at holds ended
  rw [show (initial : State ι).result.length = 0 from rfl, Nat.zero_add] at ended
  have counted : (interleave a b k coin).result.length = (docIds (interleave a b k coin).result).toFinset.card := by
    rw [List.toFinset_card_of_nodup holds.drafted.nodup, docIds, List.length_map]
  have named : (docIds (interleave a b k coin).result).toFinset ⊆ (a ++ b).toFinset := by
    intro d mem
    obtain ⟨e, in_result, rfl⟩ := List.mem_map.mp (List.mem_toFinset.mp mem)
    obtain ⟨i, pick_eq⟩ := List.mem_iff_getElem?.mp in_result
    have ranked := List.mem_of_find?_eq_some (holds.drafted.picked i e pick_eq)
    rw [List.mem_toFinset, List.mem_append]
    cases team : e.team with
    | A => rw [team] at ranked; exact .inl ranked
    | B => rw [team] at ranked; exact .inr ranked
  have few := Finset.card_le_card named
  rw [← counted] at few
  rcases ended with full | ⟨short, none_a, none_b⟩
  · omega
  · have all : (a ++ b).toFinset ⊆ (docIds (interleave a b k coin).result).toFinset := by
      intro d mem
      rw [List.mem_toFinset] at mem
      rw [List.mem_toFinset, ← holds.used]
      rcases List.mem_append.mp mem with in_a | in_b
      · exact firstUnused_eq_none.mp none_a d in_a
      · exact firstUnused_eq_none.mp none_b d in_b
    have many := Finset.card_le_card all
    rw [← counted] at many
    omega

/-- **Team-draft structure.**  The shown documents differ, and they are as many as `k` and
the rankings allow; each is its team's first unused document, so the teams keep their
rankings' order; the teams are even as long as both could pick; and with the rankings
swapped and the coins turned, the same list is shown for the other teams. -/
theorem interleave_draft (a b : List ι) (k : Nat) (coin : Nat → Bool) :
    (docIds (shown a b k coin)).Nodup ∧ (shown a b k coin).length = min k (a ++ b).toFinset.card ∧
      (∀ i d, (shown a b k coin)[i]? = some d → d.docId ∈ rankingOf a b d.team ∧
        firstUnused (rankingOf a b d.team) (docIds ((shown a b k coin).take i)) = some d.docId) ∧
      (∀ team, (teamDocs team (shown a b k coin)).Sublist (rankingOf a b team)) ∧
      (∀ n < (shown a b k coin).length, BothLeft a b ((shown a b k coin).take n) →
        Even ((shown a b k coin).take (n + 1))) ∧
      (shown b a k fun i => !coin i) = (shown a b k coin).map fun d => ⟨d.docId, d.team.other⟩ := by
  obtain ⟨⟨-, drafted, -⟩, -⟩ := loop_holds (initial_holds : Holds a b initial) coin k
  refine ⟨drafted.nodup, interleave_length a b k coin, fun i d pick_eq => ?_, drafted.in_order, drafted.even,
    congrArg State.result (loop_swapped k initial)⟩
  have first := drafted.picked i d pick_eq
  exact ⟨List.mem_of_find?_eq_some first, first⟩

end HybridSearch.Broker.Interleaving
