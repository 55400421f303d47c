/-
# Engine.GreedySearch -- greedy search over a fixed-degree graph (graph_search.hpp)

`greedy_search` expands the closest candidate until none is left.  A row is read in two
passes: the neighbours that were not visited are collected first and inserted into the
candidate list afterwards, which comes to the same as a round of the beam search of
width 1 (`round_sim`).

`Best` is what the candidate list is for: it holds the best of all visited nodes.
`Passes` are the candidate lists that a search goes through.

Distances to the query are any function of the id; prefetches and counters are left out.
-/
import HybridSearch.Engine.BeamSearch
import HybridSearch.Engine.VisitedSet

namespace HybridSearch.Engine

open HybridSearch.Theory

set_option autoImplicit false

/-- The adjacency of a graph: `R` slots a row, of which `deg` are used. -/
structure GraphView where
  adj : List Nat
  deg : List Nat
  R : Nat

/-- `GraphSearchScratch`, without the list of fresh nodes that a round starts empty. -/
structure GraphScratch where
  visited : VisitedSet
  cands : CandidateList
  expanded : List Nat

namespace GraphView

variable (g : GraphView)

/-- The used slots of a row. -/
def row (id : Nat) : Except Fault (List Nat) := do
  let d ← at? g.deg id
  (List.range d).mapM fun j => at? g.adj (id * g.R + j)

/-- The neighbours of a row that were not visited, in order, with the set that has them. -/
def collectFresh (visited : VisitedSet) (fresh : List Nat) :
    List Nat → Except Fault (VisitedSet × List Nat)
  | [] => pure (visited, fresh)
  | id :: rest => do
      let (new, visited) ← visited.insert id
      collectFresh visited (if new then fresh ++ [id] else fresh) rest

/-- The insertions of a round. -/
def insertFresh (dist : Nat → ℚ) (cands : CandidateList) (fresh : List Nat) : CandidateList :=
  fresh.foldl (fun cands id => (cands.insert id (dist id)).2) cands

/-- One expansion. -/
def round (dist : Nat → ℚ) (collect : Bool) (s : GraphScratch) : Except Fault GraphScratch := do
  match s.cands.popClosestUnexpanded with
  | none => throw .undefined
  | some (cur, cands) =>
      let row ← g.row cur.id
      let (visited, fresh) ← collectFresh s.visited [] row
      pure {
        visited := visited
        cands := insertFresh dist cands fresh
        expanded := if collect then s.expanded ++ [cur.id] else s.expanded }

/-- Whether a deadline stops the loop, and the deadline after the question. -/
def stops (hops : Nat) (dl : Option Deadline) : Bool × Option Deadline :=
  match dl with
  | none => (false, none)
  | some dl =>
      if 0 < hops then
        let (fired, dl) := dl.expiredEvery 4
        (fired, some dl)
      else (false, some dl)

/-- The loop, within its fuel. -/
def loop (dist : Nat → ℚ) (collect : Bool) :
    Nat → Nat → GraphScratch → Option Deadline → Except Fault (GraphScratch × Option Deadline)
  | 0, _, _, _ => .error .diverged
  | fuel + 1, hops, s, dl =>
      if s.cands.hasUnexpanded then
        let (stop, dl) := stops hops dl
        if stop then pure (s, dl)
        else do
          let s ← g.round dist collect s
          loop dist collect fuel (hops + 1) s dl
      else pure (s, dl)

/-- What a search starts from. -/
def begin_ (dist : Nat → ℚ) (start L : Nat) (s : GraphScratch) : Except Fault GraphScratch := do
  let (_, visited) ← s.visited.clear.insert start
  pure { visited := visited, cands := ((CandidateList.reset L).insert start (dist start)).2, expanded := [] }

/-- `greedy_search`. -/
def greedySearch (dist : Nat → ℚ) (start L : Nat) (collect : Bool) (fuel : Nat) (s : GraphScratch)
    (dl : Option Deadline) : Except Fault (GraphScratch × Option Deadline) := do
  let s ← begin_ dist start L s
  g.loop dist collect fuel 0 s dl

/-- `n` rows of `R` slots, with ids below `n` in the used ones. -/
structure WellFormed (n : Nat) : Prop where
  rows : g.deg.length = n
  slots : g.adj.length = n * g.R
  degree : ∀ id < n, g.deg.getD id 0 ≤ g.R
  ids : ∀ id < n, ∀ j < g.deg.getD id 0, g.adj.getD (id * g.R + j) 0 < n

/-- The neighbours of a node. -/
def neighbors (id : Nat) : List Nat :=
  (List.range (g.deg.getD id 0)).map fun j => g.adj.getD (id * g.R + j) 0

def graph (start : Nat) (dist : Nat → ℚ) : Graph where
  start := start
  adj := g.neighbors
  dist := dist

/-- The candidate lists that a search goes through from a state: before and after the pop of a
round, and after each insertion. -/
inductive Passes (dist : Nat → ℚ) (collect : Bool) : GraphScratch → CandidateList → Prop
  | here (s : GraphScratch) : Passes dist collect s s.cands
  | inserting {s : GraphScratch} {cur : Neighbor} {cands : CandidateList} {row fresh done : List Nat}
      {visited : VisitedSet} (popped : s.cands.popClosestUnexpanded = some (cur, cands))
      (read : g.row cur.id = .ok row) (collected : collectFresh s.visited [] row = .ok (visited, fresh))
      (part : done <+: fresh) : Passes dist collect s (insertFresh dist cands done)
  | later {s s' : GraphScratch} {l : CandidateList} (unfinished : s.cands.hasUnexpanded = true)
      (step : g.round dist collect s = .ok s') (after : Passes dist collect s' l) :
      Passes dist collect s l

variable {g} {n : Nat}

theorem WellFormed.row_eq (wf : g.WellFormed n) {id : Nat} (inside : id < n) :
    g.row id = .ok (g.neighbors id) := by
  have deg : at? g.deg id = .ok (g.deg.getD id 0) := by
    refine at?_eq_ok ?_
    have bound : id < g.deg.length := by rwa [wf.rows]
    rw [List.getD_eq_getElem?_getD, List.getElem?_eq_getElem bound, Option.getD_some]
  have read : ∀ j ∈ List.range (g.deg.getD id 0),
      at? g.adj (id * g.R + j) = .ok (g.adj.getD (id * g.R + j) 0) := by
    intro j mem
    refine at?_eq_ok ?_
    have bound : id * g.R + j < g.adj.length := by
      have row := Nat.mul_le_mul_right g.R (Nat.succ_le_of_lt inside)
      have degree := wf.degree id inside
      rw [List.mem_range] at mem
      rw [wf.slots]
      rw [Nat.succ_mul] at row
      omega
    rw [List.getD_eq_getElem?_getD, List.getElem?_eq_getElem bound, Option.getD_some]
  rw [row, deg]
  change (List.range (g.deg.getD id 0)).mapM (fun j => at? g.adj (id * g.R + j)) = _
  unfold neighbors
  generalize List.range (g.deg.getD id 0) = js at read ⊢
  induction js with
  | nil => rfl
  | cons j rest ih =>
      rw [List.mapM_cons, read j (List.mem_cons_self ..), ih fun j' mem => read j' (List.mem_cons_of_mem _ mem)]
      rfl

theorem WellFormed.bounded (wf : g.WellFormed n) {start : Nat} (inside : start < n) (dist : Nat → ℚ) :
    (g.graph start dist).Bounded n := by
  refine ⟨inside, ?_⟩
  intro a below b mem
  obtain ⟨j, used, rfl⟩ := List.mem_map.mp mem
  exact wf.ids a below j (List.mem_range.mp used)

/-! ## A round is a round of the beam search -/

/-- The scratch holds the state of the beam search. -/
structure Sim (collect : Bool) (st : Beam) (s : GraphScratch) : Prop where
  visited : s.visited.Holds st.visited
  cands : s.cands = st.cands
  expanded : collect = true → s.expanded = st.expanded

section Sim

variable {gr : Graph} {st : Beam} {collect : Bool} {s : GraphScratch}

/-- Two passes over a row offer its nodes. -/
theorem collectFresh_sim (ids : List Nat) (real : ∀ id ∈ ids, id < VisitedSet.kEmpty)
    {visited : VisitedSet} (holds : visited.Holds st.visited) (fresh : List Nat) :
    ∃ visited' new, collectFresh visited fresh ids = .ok (visited', fresh ++ new) ∧
      visited'.Holds (ids.foldl (Beam.offer gr) st).visited ∧
      (ids.foldl (Beam.offer gr) st).cands = insertFresh gr.dist st.cands new ∧
      new.Nodup ∧ ∀ id ∈ new, id ∉ st.visited := by
  induction ids generalizing st visited fresh with
  | nil =>
      refine ⟨visited, [], ?_, holds, rfl, List.nodup_nil, fun id mem => absurd mem List.not_mem_nil⟩
      rw [List.append_nil]
      rfl
  | cons id rest ih =>
      obtain ⟨visited₁, inserted, holds₁⟩ :=
        VisitedSet.insert_holds holds (real id (List.mem_cons_self ..))
      have later : ∀ other ∈ rest, other < VisitedSet.kEmpty := fun other mem =>
        real other (List.mem_cons_of_mem _ mem)
      have step : collectFresh visited fresh (id :: rest) =
          collectFresh visited₁ (if id ∉ st.visited then fresh ++ [id] else fresh) rest := by
        rw [collectFresh, inserted]
        by_cases old : id ∈ st.visited
        · simp only [old, not_true_eq_false, decide_false, if_false]
          rfl
        · simp only [old, not_false_eq_true, decide_true, if_true]
          rfl
      by_cases old : id ∈ st.visited
      · have same : Beam.offer gr st id = st := by rw [Beam.offer, if_pos old]
        rw [Finset.insert_eq_self.mpr old] at holds₁
        rw [step, List.foldl_cons, same, if_neg (not_not.mpr old)]
        exact ih later holds₁ fresh
      · have offered : Beam.offer gr st id =
            { st with visited := insert id st.visited, cands := (st.cands.insert id (gr.dist id)).2 } := by
          rw [Beam.offer, if_neg old]
        obtain ⟨visited', new, run, holds', cands, nodup, apart⟩ :=
          @ih { st with visited := insert id st.visited, cands := (st.cands.insert id (gr.dist id)).2 }
            later _ holds₁ (fresh ++ [id])
        refine ⟨visited', id :: new, ?_, ?_, ?_, ?_, ?_⟩
        · rw [step, if_pos old, run, List.append_assoc, List.singleton_append]
        · rwa [List.foldl_cons, offered]
        · rw [List.foldl_cons, offered, cands]
          rfl
        · refine List.nodup_cons.mpr ⟨fun mem => ?_, nodup⟩
          exact apart id mem (Finset.mem_insert_self ..)
        · intro other mem
          rcases List.mem_cons.mp mem with rfl | tail
          · exact old
          · exact fun seen => apart other tail (Finset.mem_insert_of_mem seen)

/-- Offers leave the expanded nodes alone. -/
theorem expanded_foldl_offer (ids : List Nat) (st : Beam) :
    (ids.foldl (Beam.offer gr) st).expanded = st.expanded := by
  induction ids generalizing st with
  | nil => rfl
  | cons id rest ih =>
      rw [List.foldl_cons, ih, Beam.offer]
      split_ifs <;> rfl

theorem popFrontier_one {l l' : CandidateList} {cur : Neighbor}
    (popped : l.popClosestUnexpanded = some (cur, l')) : l.popFrontier 1 = ([cur.id], l') := by
  rw [CandidateList.popFrontier, popped]
  rfl

variable {start L : Nat} {dist : Nat → ℚ} (wf : g.WellFormed n) (small : n < 2 ^ 32) (inside : start < n)

include wf small in
theorem real_of_mem {id b : Nat} (below : id < n) (mem : b ∈ g.neighbors id) :
    b < VisitedSet.kEmpty := by
  obtain ⟨j, used, rfl⟩ := List.mem_map.mp mem
  have bound := wf.ids id below j (List.mem_range.mp used)
  rw [VisitedSet.kEmpty, uint32Max]
  omega

include wf small inside

omit small in
/-- The popped node lies in the graph. -/
theorem popped_lt (sim : Sim collect st s) (good : Beam.Good (g.graph start dist) L st)
    {cur : Neighbor} {cands : CandidateList}
    (popped : s.cands.popClosestUnexpanded = some (cur, cands)) : cur.id < n := by
  rw [sim.cands] at popped
  have inv := good.inv.pop popped
  have mem : cur.id ∈ st.expanded ++ [cur.id] := List.mem_append_right _ (List.mem_singleton_self _)
  exact (wf.bounded inside dist).of_reaches (inv.reached _ (inv.popped_seen _ mem))

/-- **A round expands what a round of the beam search of width 1 expands.** -/
theorem round_sim (sim : Sim collect st s) (good : Beam.Good (g.graph start dist) L st)
    (unfinished : st.cands.hasUnexpanded = true) :
    ∃ s', g.round dist collect s = .ok s' ∧ Sim collect (st.round (g.graph start dist) 1) s' := by
  obtain ⟨cur, cands, popped⟩ := CandidateList.pop_isSome unfinished
  have popped' := popped
  rw [← sim.cands] at popped'
  have below := popped_lt wf inside sim good popped'
  obtain ⟨visited, new, run, holds, cands_eq, -, -⟩ :=
    @collectFresh_sim (g.graph start dist)
      { st with cands := cands, expanded := st.expanded ++ [cur.id] } (g.neighbors cur.id)
      (fun b mem => real_of_mem wf small below mem) s.visited sim.visited []
  have round : st.round (g.graph start dist) 1 = (g.neighbors cur.id).foldl
      (Beam.offer (g.graph start dist))
      { st with cands := cands, expanded := st.expanded ++ [cur.id] } := by
    rw [Beam.round, popFrontier_one popped]
    rfl
  refine ⟨⟨visited, insertFresh dist cands new,
    if collect then s.expanded ++ [cur.id] else s.expanded⟩, ?_, ?_⟩
  · rw [GraphView.round, popped']
    dsimp only
    rw [wf.row_eq below]
    change (collectFresh s.visited [] (g.neighbors cur.id) >>= _) = _
    rw [run]
    rfl
  · rw [round]
    refine ⟨holds, cands_eq.symm, ?_⟩
    intro collects
    rw [expanded_foldl_offer]
    dsimp only
    rw [if_pos collects, sim.expanded collects]

end Sim

/-! ## The best of the visited nodes -/

/-- The list has the distances of its nodes, and a visited node that it does not hold comes after
all that it holds. -/
structure Best (gr : Graph) (visited : Finset Nat) (cands : CandidateList) : Prop where
  dists : ∀ e ∈ cands.v, e.dist = gr.dist e.id
  lost : ∀ id ∈ visited, id ∉ cands.v.map Neighbor.id → ∀ e ∈ cands.v,
    neighborLess e ⟨id, gr.dist id, false⟩ = true

section Best

variable {gr : Graph} {L : Nat} {popped : List Nat} {visited : Finset Nat} {cands : CandidateList}

/-- The order only looks at distances and ids. -/
theorem neighborLess_congr {a b b' : Neighbor} (dist : b.dist = b'.dist) (id : b.id = b'.id) :
    neighborLess a b = neighborLess a b' := by
  unfold neighborLess
  rw [dist, id]

theorem Best.offer_new (best : Best gr visited cands) (inv : Beam.Inv gr L popped visited cands)
    {id : Nat} (new : id ∉ visited) :
    Best gr (insert id visited) (cands.insert id (gr.dist id)).2 := by
  have absent : ∀ e ∈ cands.v, e.id ≠ id := fun e mem same => new (same ▸ inv.seen e mem)
  have worse := fun x => @CandidateList.insert_lost cands inv.ok id (gr.dist id) absent x
  obtain ⟨ok, cap, gone, perm, full⟩ := CandidateList.insert_spec inv.ok (gr.dist id) absent
  generalize (cands.insert id (gr.dist id)).2 = cands' at *
  have mem_old {e : Neighbor} (mem : e ∈ cands'.v) : e = ⟨id, gr.dist id, false⟩ ∨ e ∈ cands.v :=
    List.mem_cons.mp (perm.mem_iff.mp (List.mem_append_right _ mem))
  constructor
  · intro e mem
    rcases mem_old mem with rfl | old
    · rfl
    · exact best.dists e old
  · intro other seen out e mem
    have ruledOut {x : Neighbor} (is : x.id = other) : x ∉ cands'.v := fun held =>
      out (is ▸ List.mem_map_of_mem held)
    rcases Finset.mem_insert.mp seen with rfl | before
    · exact worse _ (Or.inl rfl) (ruledOut rfl) e mem
    · by_cases held : other ∈ cands.v.map Neighbor.id
      · obtain ⟨x, x_mem, is⟩ := List.mem_map.mp held
        have less := worse x (Or.inr x_mem) (ruledOut is) e mem
        have same : neighborLess e x = neighborLess e ⟨other, gr.dist other, false⟩ :=
          neighborLess_congr ((best.dists x x_mem).trans (congrArg gr.dist is)) is
        rwa [same] at less
      · rcases mem_old mem with rfl | old
        · -- the new node is in a full list only because a worse one had to leave
          have was_full : cands.v.length = L := by
            rcases inv.kept with all | was_full
            · exact absurd (all other before) held
            · exact was_full
          have some_gone : gone ≠ [] := by
            rintro rfl
            have length := perm.length_eq
            have short := ok.short
            rw [List.nil_append, List.length_cons, was_full] at length
            rw [cap, inv.cap] at short
            omega
          obtain ⟨x, x_mem⟩ := List.exists_mem_of_ne_nil gone some_gone
          have distinct : ((gone ++ cands'.v).map Neighbor.id).Nodup := by
            rw [(perm.map Neighbor.id).nodup_iff, List.map_cons, List.nodup_cons]
            refine ⟨fun same => ?_, inv.distinct⟩
            obtain ⟨e, e_mem, is⟩ := List.mem_map.mp same
            exact absent e e_mem is
          have apart : x ∉ cands'.v := by
            intro held'
            rw [List.map_append, List.nodup_append] at distinct
            exact distinct.2.2 _ (List.mem_map_of_mem x_mem) _ (List.mem_map_of_mem held') rfl
          have x_old : x ∈ cands.v := by
            rcases List.mem_cons.mp (perm.mem_iff.mp (List.mem_append_left _ x_mem)) with rfl | old
            · exact absurd mem apart
            · exact old
          exact CandidateList.neighborLess_trans (worse x (Or.inr x_old) apart _ mem)
            (best.lost other before held x x_old)
        · exact best.lost other before held e old

theorem Best.pop (best : Best gr visited cands) (inv : Beam.Inv gr L popped visited cands)
    {cur : Neighbor} {cands' : CandidateList}
    (popped_is : cands.popClosestUnexpanded = some (cur, cands')) : Best gr visited cands' := by
  obtain ⟨-, -, front, back, before, after, -⟩ := CandidateList.pop_spec inv.ok popped_is
  have old {e : Neighbor} (mem : e ∈ cands'.v) : ∃ e' ∈ cands.v, e'.id = e.id ∧ e'.dist = e.dist := by
    rw [after, List.mem_append, List.mem_cons] at mem
    rw [before]
    rcases mem with left | rfl | right
    · exact ⟨e, List.mem_append_left _ left, rfl, rfl⟩
    · exact ⟨_, List.mem_append_right _ (List.mem_cons_self ..), rfl, rfl⟩
    · exact ⟨e, List.mem_append_right _ (List.mem_cons_of_mem _ right), rfl, rfl⟩
  have ids : cands'.v.map Neighbor.id = cands.v.map Neighbor.id := by
    rw [before, after, List.map_append, List.map_append]
    rfl
  constructor
  · intro e mem
    obtain ⟨e', mem', same, same'⟩ := old mem
    rw [← same', best.dists e' mem', same]
  · intro id seen out e mem
    obtain ⟨e', mem', same, same'⟩ := old mem
    rw [ids] at out
    have less := best.lost id seen out e' mem'
    unfold neighborLess at less ⊢
    rwa [same, same'] at less

theorem Best.foldl_offer (ids : List Nat) {st : Beam}
    (best : Best gr st.visited st.cands) (inv : Beam.Inv gr L popped st.visited st.cands)
    (reached : ∀ id ∈ ids, gr.Reaches id) :
    Best gr (ids.foldl (Beam.offer gr) st).visited (ids.foldl (Beam.offer gr) st).cands := by
  induction ids generalizing st with
  | nil => exact best
  | cons id rest ih =>
      have later : ∀ other ∈ rest, gr.Reaches other := fun other mem =>
        reached other (List.mem_cons_of_mem _ mem)
      rw [List.foldl_cons]
      by_cases old : id ∈ st.visited
      · have same : Beam.offer gr st id = st := by rw [Beam.offer, if_pos old]
        rw [same]
        exact ih best inv later
      · have offered : Beam.offer gr st id =
            { st with visited := insert id st.visited, cands := (st.cands.insert id (gr.dist id)).2 } := by
          rw [Beam.offer, if_neg old]
        rw [offered]
        exact @ih { st with visited := insert id st.visited, cands := (st.cands.insert id (gr.dist id)).2 }
          (best.offer_new inv old) (inv.offer_new old (reached id (List.mem_cons_self ..))) later

/-- A round of width 1 keeps the best. -/
theorem Best.round {st : Beam} (best : Best gr st.visited st.cands) (good : Beam.Good gr L st)
    (unfinished : st.cands.hasUnexpanded = true) :
    Best gr (st.round gr 1).visited (st.round gr 1).cands := by
  obtain ⟨cur, cands, popped⟩ := CandidateList.pop_isSome unfinished
  have inv := good.inv.pop popped
  have reached : gr.Reaches cur.id :=
    inv.reached _ (inv.popped_seen _ (List.mem_append_right _ (List.mem_singleton_self _)))
  rw [Beam.round, popFrontier_one popped]
  exact @Best.foldl_offer gr L (st.expanded ++ [cur.id]) (gr.adj cur.id)
    { st with cands := cands, expanded := st.expanded ++ [cur.id] }
    (best.pop good.inv popped) inv (fun b mem => reached.tail mem)

theorem best_start (positive : 0 < L) :
    Best gr (Beam.start gr L).visited (Beam.start gr L).cands := by
  have good := @Beam.start_good gr L positive
  have only : ∀ e ∈ (Beam.start gr L).cands.v, e.id = gr.start := by
    intro e mem
    exact Finset.mem_singleton.mp (good.inv.seen e mem)
  constructor
  · intro e mem
    obtain ⟨ok, cap, lost, perm, full⟩ := @CandidateList.insert_spec (CandidateList.reset L)
      (CandidateList.ok_reset L) gr.start (gr.dist gr.start) (fun e mem => absurd mem List.not_mem_nil)
    have is : e = ⟨gr.start, gr.dist gr.start, false⟩ :=
      List.mem_singleton.mp (perm.mem_iff.mp (List.mem_append_right _ mem))
    rw [is]
  · intro id seen out e mem
    rw [Finset.mem_singleton.mp seen, ← only e mem] at out
    exact absurd (List.mem_map_of_mem mem) out

end Best

/-! ## The cursor -/

/-- The cursor is at the first entry that is not expanded. -/
def AtFirst (l : CandidateList) : Prop :=
  (∀ i < l.cursor, ∀ e, l.v[i]? = some e → e.expanded = true) ∧
    ∀ e, l.v[l.cursor]? = some e → e.expanded = false

/-- Inserting new nodes keeps a list in order. -/
theorem insertFresh_ok (dist : Nat → ℚ) (ids : List Nat) (nodup : ids.Nodup) {l : CandidateList}
    (ok : l.Ok) (new : ∀ id ∈ ids, ∀ e ∈ l.v, e.id ≠ id) : (insertFresh dist l ids).Ok := by
  induction ids generalizing l with
  | nil => exact ok
  | cons id rest ih =>
      obtain ⟨apart, nodup'⟩ := List.nodup_cons.mp nodup
      obtain ⟨ok', -, lost, perm, -⟩ :=
        CandidateList.insert_spec ok (dist id) (new id (List.mem_cons_self ..))
      refine ih nodup' ok' ?_
      intro other mem e e_mem same
      rcases List.mem_cons.mp (perm.mem_iff.mp (List.mem_append_right _ e_mem)) with rfl | old
      · have is : id = other := same
        exact apart (is ▸ mem)
      · exact new other (List.mem_cons_of_mem _ mem) e old same

theorem stops_unlimited {dl : Option Deadline} (never : ∀ d ∈ dl, d.limited = false) (hops : Nat) :
    stops hops dl = (false, dl) := by
  cases dl with
  | none => rfl
  | some d =>
      have unvisited := never d rfl
      unfold stops Deadline.expiredEvery
      simp [unvisited]

section Run

variable {start L : Nat} {dist : Nat → ℚ} (wf : g.WellFormed n) (small : n < 2 ^ 32) (inside : start < n)
  {st : Beam} {collect : Bool} {s : GraphScratch}

include wf small inside

/-- **At every step** the cursor is at the first entry that is not expanded. -/
theorem passes_atFirst {l : CandidateList} (passes : g.Passes dist collect s l)
    (sim : Sim collect st s) (good : Beam.Good (g.graph start dist) L st) : AtFirst l := by
  induction passes generalizing st with
  | here s =>
      rw [sim.cands]
      exact ⟨good.inv.ok.before, good.inv.ok.here⟩
  | inserting popped read collected part =>
      rename_i s cur cands row fresh done visited
      have below := popped_lt wf inside sim good popped
      rw [wf.row_eq below] at read
      cases read
      obtain ⟨visited', new, run, -, -, nodup, apart⟩ :=
        @collectFresh_sim (g.graph start dist)
          { st with cands := cands, expanded := st.expanded ++ [cur.id] } (g.neighbors cur.id)
          (fun b mem => real_of_mem wf small below mem) s.visited sim.visited []
      rw [collected, List.nil_append] at run
      cases run
      rw [sim.cands] at popped
      have inv := good.inv.pop popped
      have ok := insertFresh_ok dist done (nodup.sublist part.sublist) inv.ok (by
        intro id mem e e_mem same
        exact apart id (part.subset mem) (same ▸ inv.seen e e_mem))
      exact ⟨ok.before, ok.here⟩
  | later unfinished step after ih =>
      rename_i s s' l
      rw [sim.cands] at unfinished
      obtain ⟨s'', step', sim'⟩ := round_sim wf small inside sim good unfinished
      rw [step] at step'
      cases step'
      exact ih sim' (Beam.round_inv good 1).1

/-- **The loop ends**, with nothing left to expand. -/
theorem loop_sim {dl : Option Deadline} (never : ∀ d ∈ dl, d.limited = false) {fuel hops : Nat}
    (sim : Sim collect st s) (good : Beam.Good (g.graph start dist) L st)
    (best : Best (g.graph start dist) st.visited st.cands)
    (enough : n < fuel + st.expanded.length) :
    ∃ s' st', g.loop dist collect fuel hops s dl = .ok (s', dl) ∧ Sim collect st' s' ∧
      Beam.Good (g.graph start dist) L st' ∧ Best (g.graph start dist) st'.visited st'.cands ∧
      st'.cands.hasUnexpanded = false := by
  induction fuel generalizing st s hops with
  | zero =>
      have := good.expanded_le (wf.bounded inside dist)
      omega
  | succ fuel ih =>
      rw [loop, sim.cands]
      by_cases unfinished : st.cands.hasUnexpanded = true
      · obtain ⟨s₁, step, sim₁⟩ := round_sim wf small inside sim good unfinished
        obtain ⟨good₁, grew⟩ := Beam.round_inv good 1
        have progress := Beam.frontier_nonempty unfinished Nat.one_pos
        rw [if_pos unfinished, stops_unlimited never]
        change ∃ s' st', (g.round dist collect s >>= fun s => g.loop dist collect fuel (hops + 1) s dl) =
          _ ∧ _
        rw [step]
        refine ih sim₁ good₁ (best.round good unfinished) ?_
        rw [grew, List.length_append]
        omega
      · rw [if_neg unfinished]
        exact ⟨s, st, rfl, sim, good, best, Bool.eq_false_iff.mpr unfinished⟩

end Run

end GraphView

end HybridSearch.Engine
