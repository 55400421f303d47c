/-
# Clicks.InterleaveAgreement -- broker and simulator interleave alike

The simulator leaves a cursor on the document it took, the broker moves it past, and
both skip used documents before the next pick, so the cursors meet again (`Same`).
A coin is drawn exactly when the teams are equal, so the draws agree one by one
(`loop_agrees`), and a finite list of coins runs out exactly when the broker would
draw past its end.

* `teamDraft_agrees`: `team_draft` against `Interleave`, on any stream of coins;
* `drawn_le`: at most every second position draws a coin;
* `interleavings_agree`: `enumerate_team_draft` lists the runs by their consumed coins.
-/
import HybridSearch.Broker.Interleaving
import HybridSearch.Clicks.Interleave
import Mathlib

namespace HybridSearch.Clicks

open HybridSearch.Broker HybridSearch.Broker.Interleaving

set_option autoImplicit false

variable {ι : Type} [DecidableEq ι]

/-- The label `team_draft` gives a team. -/
def label : Team → String
  | .A => "A"
  | .B => "B"

/-! ## Cursors -/

/-- The simulator's cursor, and the broker's: on the document taken last, and past it. -/
def Same (ranking used : List ι) (i j : Nat) : Prop :=
  j = i ∨ j = i + 1 ∧ ∃ d ∈ used, ranking[i]? = some d

theorem Same.advance {ranking used : List ι} {i j : Nat} (same : Same ranking used i j) :
    Draft.advance ranking used i = advancePastUsed ranking j used := by
  rcases same with rfl | ⟨rfl, d, used_d, at_i⟩
  · rfl
  · obtain ⟨inside, entry⟩ := List.getElem?_eq_some_iff.mp at_i
    rw [Draft.advance, advancePastUsed, List.drop_eq_getElem_cons inside, entry]
    simp only [List.takeWhile_cons, decide_eq_true used_d, if_true, List.length_cons]
    omega

/-- The simulator's variables hold the broker's. -/
structure Agrees (a b : List ι) (st : State ι) (py : Draft ι) : Prop where
  out : py.out = st.result.map InterleavedDoc.docId
  teams : py.teams = st.result.map fun d => label d.team
  seen : py.seen = st.used
  ta : py.ta = st.sizeA
  tb : py.tb = st.sizeB
  used : py.used = st.drawn
  ia : Same a st.used py.ia st.ia
  ib : Same b st.used py.ib st.ib

/-! ## Coins drawn -/

variable {a b : List ι} {coins : Nat → Option Bool} {coin : Nat → Bool}

omit [DecidableEq ι] in
theorem drawn_pickTeam (st : State ι) :
    (pickTeam coin st).2 = st.drawn + if st.sizeA = st.sizeB then 1 else 0 := by
  rw [pickTeam]
  split_ifs <;> omega

/-- A position is filled with what the pick drew, or the loop ends. -/
theorem loop_succ (a b : List ι) (coin : Nat → Bool) (n : Nat) (st : State ι) :
    (loop a b coin (n + 1) st).drawn = st.drawn ∨
      ∃ st', loop a b coin (n + 1) st = loop a b coin n st' ∧ st'.drawn = (pickTeam coin st).2 ∧
        st'.sizeA + st'.sizeB = st.sizeA + st.sizeB + 1 := by
  rw [loop]
  dsimp only
  split_ifs with finished
  · exact .inl rfl
  · split
    · exact .inl rfl
    · exact .inr ⟨_, rfl, rfl, by dsimp only; omega⟩
    · exact .inr ⟨_, rfl, rfl, by dsimp only; omega⟩

/-- **At most every second position draws a coin.** -/
theorem drawn_le (n : Nat) (st : State ι) :
    st.drawn ≤ (loop a b coin n st).drawn ∧
      (loop a b coin n st).drawn + (st.sizeA + st.sizeB + 1) / 2 ≤
        st.drawn + (st.sizeA + st.sizeB + n + 1) / 2 := by
  induction n generalizing st with
  | zero => exact ⟨le_rfl, le_rfl⟩
  | succ n ih =>
      rcases loop_succ a b coin n st with ended | ⟨st', same, drawn, size⟩
      · rw [ended]
        omega
      · obtain ⟨more, few⟩ := ih st'
        rw [drawn_pickTeam] at drawn
        rw [same]
        split_ifs at drawn with equal <;> omega

/-! ## One position -/

omit [DecidableEq ι] in
theorem lt_length_iff (l : List ι) (i : Nat) : decide (i < l.length) = l[i]?.isSome := by
  rcases Nat.lt_or_ge i l.length with inside | beyond
  · rw [List.getElem?_eq_getElem inside, decide_eq_true inside]
    rfl
  · rw [List.getElem?_eq_none beyond, decide_eq_false (not_lt.mpr beyond)]
    rfl

omit [DecidableEq ι] in
/-- Ceding is the same. -/
theorem cede_eq (pick : Bool) (x y : Option ι) :
    cede (if pick then Team.A else Team.B) x y =
      if Draft.settle pick x.isSome y.isSome then x.map fun d => (Team.A, d)
      else y.map fun d => (Team.B, d) := by
  cases pick <;> cases x <;> cases y <;> rfl

omit [DecidableEq ι] in
/-- The side that picks has a document, when there is one. -/
theorem settle_isSome (pick : Bool) {x y : Option ι} (unfinished : ¬ (x.isNone ∧ y.isNone)) :
    if Draft.settle pick x.isSome y.isSome then ∃ d, x = some d else ∃ d, y = some d := by
  cases pick <;> cases x <;> cases y <;> simp_all [Draft.settle]

omit [DecidableEq ι] in
/-- The picks agree, unless the simulator's coins have run out. -/
theorem pick_agrees (agree : ∀ i c, coins i = some c → coin i = c) {st : State ι} {py : Draft ι}
    (agrees : Agrees a b st py) :
    (Draft.pickA coins py = .error .coinsExhausted ∧ coins st.drawn = none ∧
        (pickTeam coin st).2 = st.drawn + 1) ∨
      ∃ pick, Draft.pickA coins py = .ok (pick, (pickTeam coin st).2) ∧
        (pickTeam coin st).1 = (if pick then .A else .B) ∧
        ∀ i, st.drawn ≤ i → i < (pickTeam coin st).2 → coins i ≠ none := by
  have nothing {i : Nat} (low : st.drawn ≤ i) (high : i < st.drawn) : coins i ≠ none :=
    absurd (low.trans_lt high) (lt_irrefl _)
  rw [Draft.pickA, pickTeam, agrees.ta, agrees.tb, agrees.used]
  by_cases less : st.sizeA < st.sizeB
  · rw [if_pos less, if_pos less]
    exact .inr ⟨true, rfl, rfl, fun i => nothing⟩
  by_cases more : st.sizeB < st.sizeA
  · rw [if_neg less, if_neg less, if_pos more, if_pos more]
    exact .inr ⟨false, rfl, rfl, fun i => nothing⟩
  rw [if_neg less, if_neg less, if_neg more, if_neg more]
  cases drawn : coins st.drawn with
  | none => exact .inl ⟨rfl, rfl, rfl⟩
  | some c =>
      refine .inr ⟨c, rfl, by rw [agree _ c drawn], ?_⟩
      intro i low high
      have here : i = st.drawn := by
        have : i < st.drawn + 1 := high
        omega
      rw [here, drawn]
      exact Option.some_ne_none c

/-- The broker's variables once a team has taken a document. -/
def took (st : State ι) (ia ib drawn : Nat) (team : Team) (d : ι) : State ι where
  result := st.result ++ [⟨d, team⟩]
  used := st.used ++ [d]
  ia := if team = .A then ia + 1 else ia
  ib := if team = .B then ib + 1 else ib
  sizeA := if team = .A then st.sizeA + 1 else st.sizeA
  sizeB := if team = .B then st.sizeB + 1 else st.sizeB
  drawn := drawn

/-- Which team takes which document. -/
theorem loop_took (n : Nat) (st : State ι) {pick : Bool}
    (picked : (pickTeam coin st).1 = if pick then .A else .B)
    (unfinished : ¬ (a[advancePastUsed a st.ia st.used]?.isNone ∧
      b[advancePastUsed b st.ib st.used]?.isNone)) :
    let ia := advancePastUsed a st.ia st.used
    let ib := advancePastUsed b st.ib st.used
    (Draft.settle pick a[ia]?.isSome b[ib]?.isSome = true ∧ ∃ d, a[ia]? = some d ∧
        loop a b coin (n + 1) st = loop a b coin n (took st ia ib (pickTeam coin st).2 .A d)) ∨
      (Draft.settle pick a[ia]?.isSome b[ib]?.isSome = false ∧ ∃ d, b[ib]? = some d ∧
        loop a b coin (n + 1) st = loop a b coin n (took st ia ib (pickTeam coin st).2 .B d)) := by
  intro ia ib
  have has := settle_isSome pick unfinished
  rw [loop]
  dsimp only
  rw [if_neg unfinished, picked, cede_eq]
  by_cases side : Draft.settle pick a[ia]?.isSome b[ib]?.isSome = true
  · rw [if_pos side] at has ⊢
    obtain ⟨d, drawn⟩ := has
    rw [drawn]
    exact .inl ⟨drawn ▸ side, d, rfl, rfl⟩
  · rw [if_neg side] at has ⊢
    obtain ⟨d, drawn⟩ := has
    rw [drawn]
    exact .inr ⟨drawn ▸ Bool.eq_false_iff.mpr side, d, rfl, rfl⟩

omit [DecidableEq ι] in
/-- The simulator's variables once a team has taken a document. -/
theorem Agrees.took {st : State ι} {py : Draft ι} (agrees : Agrees a b st py) {ia ib drawn : Nat}
    {team : Team} {d : ι} (taken : (team = .A → a[ia]? = some d) ∧ (team = .B → b[ib]? = some d)) :
    Agrees a b (took st ia ib drawn team d)
      ⟨py.out ++ [d], py.teams ++ [label team], st.used ++ [d],
        if team = .A then py.ta + 1 else py.ta, if team = .B then py.tb + 1 else py.tb, ia, ib, drawn⟩ where
  out := by
    rw [agrees.out, Clicks.took, List.map_append]
    rfl
  teams := by
    rw [agrees.teams, Clicks.took, List.map_append]
    rfl
  seen := rfl
  ta := by rw [agrees.ta]; rfl
  tb := by rw [agrees.tb]; rfl
  used := rfl
  ia := by
    cases team with
    | A => exact .inr ⟨rfl, d, List.mem_append_right _ (List.mem_singleton_self d), taken.1 rfl⟩
    | B => exact .inl rfl
  ib := by
    cases team with
    | A => exact .inl rfl
    | B => exact .inr ⟨rfl, d, List.mem_append_right _ (List.mem_singleton_self d), taken.2 rfl⟩

/-- **The loops agree position by position**, and the simulator fails exactly when the broker
draws a coin that is not there. -/
theorem loop_agrees (agree : ∀ i c, coins i = some c → coin i = c) (n : Nat) {st : State ι} {py : Draft ι}
    (agrees : Agrees a b st py) :
    ((∀ i, st.drawn ≤ i → i < (loop a b coin n st).drawn → coins i ≠ none) →
        ∃ py', Draft.loop a b coins n py = .ok py' ∧ Agrees a b (loop a b coin n st) py') ∧
      ((∃ i, st.drawn ≤ i ∧ i < (loop a b coin n st).drawn ∧ coins i = none) →
        Draft.loop a b coins n py = .error .coinsExhausted) := by
  induction n generalizing st py with
  | zero =>
      refine ⟨fun _ => ⟨py, rfl, agrees⟩, ?_⟩
      rintro ⟨i, low, high, _⟩
      exact absurd (low.trans_lt high) (lt_irrefl _)
  | succ n ih =>
      rw [Draft.loop, agrees.seen, agrees.ia.advance, agrees.ib.advance]
      rw [lt_length_iff, lt_length_iff]
      by_cases finished : a[advancePastUsed a st.ia st.used]?.isNone ∧
          b[advancePastUsed b st.ib st.used]?.isNone
      · have py_finished : (!a[advancePastUsed a st.ia st.used]?.isSome &&
            !b[advancePastUsed b st.ib st.used]?.isSome) = true := by
          simpa using finished
        rw [if_pos py_finished, loop, if_pos finished]
        refine ⟨fun _ => ⟨_, rfl, ?_⟩, ?_⟩
        · exact ⟨agrees.out, agrees.teams, rfl, agrees.ta, agrees.tb, agrees.used, .inl rfl,
            .inl rfl⟩
        · rintro ⟨i, low, high, _⟩
          exact absurd (low.trans_lt high) (lt_irrefl _)
      · have py_unfinished : ¬ (!a[advancePastUsed a st.ia st.used]?.isSome &&
            !b[advancePastUsed b st.ib st.used]?.isSome) = true := by
          simpa using finished
        rw [if_neg py_unfinished]
        have more : st.drawn ≤ (pickTeam coin st).2 := by
          rw [drawn_pickTeam]
          exact Nat.le_add_right ..
        rcases pick_agrees agree agrees with ⟨py_pick, none_at, drawn⟩ | ⟨pick, py_pick, picked, enough⟩
        · -- the simulator has no coin, and the broker draws one
          rw [py_pick]
          refine ⟨fun all => absurd none_at (all _ le_rfl ?_), fun _ => rfl⟩
          have either : (pickTeam coin st).1 =
              if decide ((pickTeam coin st).1 = .A) then .A else .B := by
            cases (pickTeam coin st).1 <;> rfl
          have ahead {st' : State ι} (at_st' : st'.drawn = (pickTeam coin st).2) :
              st.drawn < (loop a b coin n st').drawn := by
            have := (@drawn_le ι _ a b coin n st').1
            omega
          rcases loop_took n st either finished with ⟨_, d, _, same⟩ | ⟨_, d, _, same⟩
          · rw [same]
            exact ahead rfl
          · rw [same]
            exact ahead rfl
        · rw [py_pick]
          have onward {st' : State ι} {py' : Draft ι} (drawn : st'.drawn = (pickTeam coin st).2)
              (agrees' : Agrees a b st' py') :
              ((∀ i, st.drawn ≤ i → i < (loop a b coin n st').drawn → coins i ≠ none) →
                  ∃ py'', Draft.loop a b coins n py' = .ok py'' ∧ Agrees a b (loop a b coin n st') py'') ∧
                ((∃ i, st.drawn ≤ i ∧ i < (loop a b coin n st').drawn ∧ coins i = none) →
                  Draft.loop a b coins n py' = .error .coinsExhausted) := by
            obtain ⟨runs, fails⟩ := ih agrees'
            rw [drawn] at runs fails
            refine ⟨fun all => runs fun i low => all i (more.trans low), ?_⟩
            rintro ⟨i, low, high, missing⟩
            refine fails ⟨i, ?_, high, missing⟩
            by_contra early
            exact enough i low (not_le.mp early) missing
          rcases loop_took n st picked finished with ⟨side, d, coin_eq, same⟩ | ⟨side, d, coin_eq, same⟩
          · dsimp only
            rw [side, if_pos rfl, coin_eq, same]
            exact onward rfl (agrees.took ⟨fun _ => coin_eq, fun impossible => by cases impossible⟩)
          · dsimp only
            rw [side, if_neg Bool.false_ne_true, coin_eq, same]
            exact onward rfl (agrees.took ⟨fun impossible => (by cases impossible), fun _ => coin_eq⟩)

/-! ## The procedures -/

/-- What `team_draft` returns for a run of the broker. -/
def drafted (st : State ι) : List ι × List String × Nat :=
  (st.result.map InterleavedDoc.docId, st.result.map fun d => label d.team, st.drawn)

/-- **`team_draft` returns what `Interleave` computes**, or its coins run out exactly where the
broker would draw past their end. -/
theorem teamDraft_agrees (agree : ∀ i c, coins i = some c → coin i = c) (k : Nat) :
    ((∀ i, i < (interleave a b k coin).drawn → coins i ≠ none) →
        teamDraft a b k coins = .ok (drafted (interleave a b k coin))) ∧
      ((∃ i, i < (interleave a b k coin).drawn ∧ coins i = none) →
        teamDraft a b k coins = .error .coinsExhausted) := by
  have start : Agrees a b (Interleaving.initial : State ι) Draft.initial :=
    ⟨rfl, rfl, rfl, rfl, rfl, rfl, .inl rfl, .inl rfl⟩
  obtain ⟨runs, fails⟩ := loop_agrees agree k start
  constructor
  · intro all
    obtain ⟨py, ran, agrees⟩ := runs fun i _ => all i
    rw [teamDraft, ran]
    dsimp only
    rw [agrees.out, agrees.teams, agrees.used]
    rfl
  · rintro ⟨i, high, missing⟩
    rw [teamDraft, fails ⟨i, Nat.zero_le i, high, missing⟩]

/-- The stream starts with these coins. -/
def Extends (coin : Nat → Bool) (front : List Bool) : Prop := ∀ i c, front[i]? = some c → coin i = c

/-- The coins a run consumes. -/
def consumed (a b : List ι) (k : Nat) (coin : Nat → Bool) : List Bool :=
  (List.range (interleave a b k coin).drawn).map coin

theorem teamDraft_list {front : List Bool} (starts : Extends coin front) (k : Nat) :
    teamDraft a b k (fun i => front[i]?) =
      if (interleave a b k coin).drawn ≤ front.length then .ok (drafted (interleave a b k coin))
      else .error .coinsExhausted := by
  obtain ⟨runs, fails⟩ := @teamDraft_agrees ι _ a b (fun i => front[i]?) coin starts k
  split_ifs with enough
  · refine runs fun i less => ?_
    rw [List.getElem?_eq_getElem (by omega)]
    exact Option.some_ne_none _
  · exact fails ⟨front.length, by omega, List.getElem?_eq_none le_rfl⟩

theorem drawn_interleave_le (k : Nat) : (interleave a b k coin).drawn ≤ (k + 1) / 2 := by
  have bound := (@drawn_le ι _ a b coin k Interleaving.initial).2
  rw [interleave]
  simp only [Interleaving.initial, Nat.zero_add] at bound ⊢
  omega

/-! ## The enumeration -/

/-- A stream that starts with these coins. -/
def padded (front : List Bool) (i : Nat) : Bool := front.getD i false

theorem padded_extends (front : List Bool) : Extends (padded front) front := by
  intro i c drawn
  rw [padded, List.getD_eq_getElem?_getD, drawn]
  rfl

/-- A stream that starts with the coins and consumes as many of them consumes just them. -/
theorem consumed_eq {front : List Bool} {k : Nat} (starts : Extends coin front)
    (drawn : (interleave a b k coin).drawn = front.length) : consumed a b k coin = front := by
  rw [consumed, drawn]
  refine List.ext_getElem (by simp) ?_
  intro i _ inside
  rw [List.getElem_map, List.getElem_range]
  exact starts i _ (List.getElem?_eq_getElem inside)

theorem extends_snoc {front : List Bool} {c : Bool} :
    Extends coin (front ++ [c]) ↔ Extends coin front ∧ coin front.length = c := by
  constructor
  · intro starts
    refine ⟨fun i d drawn => starts i d ?_, starts _ _ List.getElem?_concat_length⟩
    obtain ⟨inside, _⟩ := List.getElem?_eq_some_iff.mp drawn
    rw [List.getElem?_append_left inside, drawn]
  · rintro ⟨starts, last⟩ i d drawn
    rcases Nat.lt_trichotomy i front.length with inside | rfl | beyond
    · rw [List.getElem?_append_left inside] at drawn
      exact starts i d drawn
    · rw [List.getElem?_concat_length] at drawn
      rw [last, Option.some.inj drawn]
    · rw [List.getElem?_eq_none (by rw [List.length_append, List.length_singleton]; omega)] at drawn
      cases drawn

/-- The entry of the runs that consume these coins. -/
def outcomeOf (a b : List ι) (k : Nat) (front : List Bool) : Outcome ι :=
  let st := interleave a b k (padded front)
  ⟨(drafted st).1, (drafted st).2.1, (1 / 2) ^ front.length⟩

/-- What the enumeration below some coins lists. -/
structure Listed (a b : List ι) (k : Nat) (front : List Bool) (fronts : List (List Bool)) : Prop where
  nodup : fronts.Nodup
  mem : ∀ p, p ∈ fronts ↔ ∃ coin, Extends coin front ∧ consumed a b k coin = p
  prob : (fronts.map fun p => ((1 : ℚ) / 2) ^ p.length).sum = (1 / 2) ^ front.length
  few : fronts.length ≤ 2 ^ ((k + 1) / 2 - front.length)

/-- **The enumeration below some coins** lists the runs that start with them, once each. -/
theorem enumerateFrom_spec (a b : List ι) (k : Nat) {depth : Nat} {front : List Bool}
    (needed : ∀ coin, Extends coin front → front.length ≤ (interleave a b k coin).drawn)
    (deep : (k + 1) / 2 < depth + front.length) :
    ∃ fronts, enumerateFrom a b k depth front = some (fronts.map (outcomeOf a b k)) ∧
      Listed a b k front fronts := by
  induction depth generalizing front with
  | zero =>
      have := needed _ (padded_extends front)
      have := @drawn_interleave_le ι _ a b (padded front) k
      omega
  | succ depth ih =>
      rw [enumerateFrom, teamDraft_list (padded_extends front) k]
      by_cases enough : (interleave a b k (padded front)).drawn ≤ front.length
      · rw [if_pos enough]
        have exactly (coin : Nat → Bool) (starts : Extends coin front) :
            (interleave a b k coin).drawn = front.length := by
          refine le_antisymm ?_ (needed coin starts)
          have same := (teamDraft_list (a := a) (b := b) starts k).symm.trans
            (teamDraft_list (padded_extends front) k)
          rw [if_pos enough] at same
          by_contra beyond
          rw [if_neg beyond] at same
          cases same
        refine ⟨[front], ?_, List.nodup_singleton _, ?_, by simp, ?_⟩
        · have used := exactly _ (padded_extends front)
          rw [List.map_singleton, outcomeOf, ← used]
          rfl
        · intro p
          rw [List.mem_singleton]
          constructor
          · rintro rfl
            exact ⟨padded p, padded_extends p, consumed_eq (padded_extends p) (exactly _ (padded_extends p))⟩
          · rintro ⟨coin, starts, rfl⟩
            exact consumed_eq starts (exactly coin starts)
        · exact Nat.one_le_two_pow
      · rw [if_neg enough]
        have further (coin : Nat → Bool) (starts : Extends coin front) :
            front.length < (interleave a b k coin).drawn := by
          have same := (teamDraft_list (a := a) (b := b) starts k).symm.trans
            (teamDraft_list (padded_extends front) k)
          rw [if_neg enough] at same
          by_contra short
          rw [if_pos (not_lt.mp short)] at same
          cases same
        have below (c : Bool) := @ih (front ++ [c])
          (by
            intro coin starts
            rw [List.length_append, List.length_singleton]
            exact further coin (extends_snoc.mp starts).1)
          (by rw [List.length_append, List.length_singleton]; omega)
        obtain ⟨heads, heads_eq, heads_listed⟩ := below true
        obtain ⟨tails, tails_eq, tails_listed⟩ := below false
        have room := further _ (padded_extends front)
        have bound := @drawn_interleave_le ι _ a b (padded front) k
        -- the next coin of a run is the first on which the halves differ
        have next {c : Bool} {coin : Nat → Bool} (starts : Extends coin (front ++ [c])) :
            (consumed a b k coin)[front.length]? = some c := by
          obtain ⟨starts', last⟩ := extends_snoc.mp starts
          rw [consumed, List.getElem?_map, List.getElem?_range (further coin starts'), Option.map_some, last]
        refine ⟨heads ++ tails, ?_, ?_, ?_, ?_, ?_⟩
        · rw [heads_eq, tails_eq, List.map_append]
          rfl
        · rw [List.nodup_append]
          refine ⟨heads_listed.nodup, tails_listed.nodup, ?_⟩
          intro p head q tail same
          obtain ⟨coin, starts, rfl⟩ := (heads_listed.mem p).mp head
          obtain ⟨coin', starts', rfl⟩ := (tails_listed.mem q).mp tail
          have first := next starts
          rw [same, next starts'] at first
          cases first
        · intro p
          rw [List.mem_append, heads_listed.mem, tails_listed.mem]
          constructor
          · rintro (⟨coin, starts, rfl⟩ | ⟨coin, starts, rfl⟩)
            · exact ⟨coin, (extends_snoc.mp starts).1, rfl⟩
            · exact ⟨coin, (extends_snoc.mp starts).1, rfl⟩
          · rintro ⟨coin, starts, rfl⟩
            cases last : coin front.length with
            | true => exact .inl ⟨coin, extends_snoc.mpr ⟨starts, last⟩, rfl⟩
            | false => exact .inr ⟨coin, extends_snoc.mpr ⟨starts, last⟩, rfl⟩
        · rw [List.map_append, List.sum_append, heads_listed.prob, tails_listed.prob,
            List.length_append, List.length_append, List.length_singleton, List.length_singleton, pow_succ]
          ring
        · have heads_few := heads_listed.few
          have tails_few := tails_listed.few
          rw [List.length_append, List.length_singleton] at heads_few tails_few
          have split : (k + 1) / 2 - front.length = ((k + 1) / 2 - (front.length + 1)) + 1 := by omega
          rw [split, pow_succ, List.length_append]
          omega

/-- **Broker and simulator interleave alike.**  On any stream of coins they return the same
documents with the same teams and draw the same coins; on a finite list the simulator fails
exactly when the broker draws past its end; and the enumeration lists every run once, by the
coins it consumes. -/
theorem interleavings_agree (a b : List ι) (k : Nat) :
    (∀ coin : Nat → Bool, teamDraft a b k (fun i => some (coin i)) =
        .ok (drafted (interleave a b k coin))) ∧
      (∀ (front : List Bool) (coin : Nat → Bool), Extends coin front →
        teamDraft a b k (fun i => front[i]?) =
          if (interleave a b k coin).drawn ≤ front.length then .ok (drafted (interleave a b k coin))
          else .error .coinsExhausted) ∧
      ∀ depth, (k + 1) / 2 < depth →
        ∃ fronts : List (List Bool),
          enumerateTeamDraft a b k depth = some (fronts.map (outcomeOf a b k)) ∧
            fronts.Nodup ∧ (∀ p, p ∈ fronts ↔ ∃ coin, consumed a b k coin = p) ∧
            (∀ coin, (outcomeOf a b k (consumed a b k coin)).out = (drafted (interleave a b k coin)).1 ∧
              (outcomeOf a b k (consumed a b k coin)).teams = (drafted (interleave a b k coin)).2.1 ∧
              (outcomeOf a b k (consumed a b k coin)).prob = (1 / 2) ^ (interleave a b k coin).drawn) ∧
            ((fronts.map (outcomeOf a b k)).map Outcome.prob).sum = 1 ∧
            fronts.length ≤ 2 ^ ((k + 1) / 2) := by
  refine ⟨?_, fun front coin starts => teamDraft_list starts k, ?_⟩
  · intro coin
    exact (@teamDraft_agrees ι _ a b (fun i => some (coin i)) coin (fun i c same => Option.some.inj same) k).1
      fun i _ => Option.some_ne_none _
  · intro depth deep
    obtain ⟨fronts, run, listed⟩ := @enumerateFrom_spec ι _ a b k depth [] (fun _ _ => Nat.zero_le _) deep
    refine ⟨fronts, run, listed.nodup, ?_, ?_, ?_, listed.few⟩
    · intro p
      rw [listed.mem]
      refine exists_congr fun coin => ⟨fun both => both.2, fun same => ⟨?_, same⟩⟩
      intro i c drawn
      cases drawn
    · intro coin
      have length : (consumed a b k coin).length = (interleave a b k coin).drawn := by
        rw [consumed, List.length_map, List.length_range]
      have starts : Extends coin (consumed a b k coin) := by
        intro i c drawn
        obtain ⟨inside, entry⟩ := List.getElem?_eq_some_iff.mp drawn
        rw [← entry]
        simp only [consumed, List.getElem_map, List.getElem_range]
      have same := (teamDraft_list (a := a) (b := b) starts k).symm.trans
        (teamDraft_list (padded_extends _) k)
      rw [if_pos length.ge] at same
      split_ifs at same
      have drafts := Except.ok.inj same
      refine ⟨?_, ?_, ?_⟩
      · rw [drafts]
        rfl
      · rw [drafts]
        rfl
      · rw [outcomeOf, length]
    · rw [List.map_map]
      exact listed.prob.trans (pow_zero _)

/-- Three positions of two rankings that share documents. -/
theorem interleavings_agree_three : ∃ fronts : List (List Bool),
    enumerateTeamDraft [1, 2, 3] [2, 1, 4] 3 3 = some (fronts.map (outcomeOf [1, 2, 3] [2, 1, 4] 3)) ∧
      ((fronts.map (outcomeOf [1, 2, 3] [2, 1, 4] 3)).map Outcome.prob).sum = 1 := by
  obtain ⟨fronts, run, _, _, _, total, _⟩ :=
    (interleavings_agree [1, 2, 3] [2, 1, 4] 3).2.2 3 (by decide)
  exact ⟨fronts, run, total⟩

end HybridSearch.Clicks
