/-
# Engine.Vamana -- the graph index in memory and its search (src/vector/vamana.cc)

`VamanaIndex::search` runs the greedy search from the medoid and ranks the first `k`
candidates again by inner product.  What the greedy search guarantees is put together
in `greedySearch_spec`; a list that can hold all reachable nodes makes the search exact
(`search_spec`).
-/
import HybridSearch.Engine.DiskIndex
import HybridSearch.Engine.GreedySearch

namespace HybridSearch.Engine

open HybridSearch.Theory

set_option autoImplicit false

/-- The graph of an index; the vectors are with the query. -/
structure VamanaIndex where
  n : Nat
  R : Nat
  medoid : Nat
  deg : List Nat
  adj : List Nat

/-- What a query gives: squared distances and inner products with the vectors. -/
structure VamanaQuery where
  l2sq : Nat → ℚ
  ip : Nat → ℚ

namespace VamanaIndex

variable (ix : VamanaIndex)

def view : GraphView := ⟨ix.adj, ix.deg, ix.R⟩

/-- `search`, within the fuel of its loop. -/
def search (q : VamanaQuery) (opts : VectorSearchOptions) (fuel : Nat) (s : GraphScratch)
    (dl : Deadline) : Except Fault (VectorResult × GraphScratch) := do
  let k := min opts.k ix.n
  let L := max opts.L k
  let (s, dl) ← ix.view.greedySearch q.l2sq ix.medoid L false fuel s (some dl)
  let top := (s.cands.v.take k).foldl (fun top c => (top.push c.id (q.ip c.id)).2) (TopK.empty k)
  pure (⟨top.takeSorted, dl.any Deadline.fired⟩, s)

end VamanaIndex

namespace Graph

open Classical in
/-- The reachable ids below `n`. -/
noncomputable def reachable (gr : Graph) (n : Nat) : List Nat :=
  (List.range n).filter fun id => decide (gr.Reaches id)

open Classical in
theorem mem_reachable {gr : Graph} {n : Nat} (bounded : gr.Bounded n) {id : Nat} :
    id ∈ gr.reachable n ↔ gr.Reaches id := by
  rw [reachable, List.mem_filter, List.mem_range, decide_eq_true_eq]
  exact ⟨fun both => both.2, fun reached => ⟨bounded.of_reaches reached, reached⟩⟩

theorem nodup_reachable (gr : Graph) (n : Nat) : (gr.reachable n).Nodup := List.nodup_range.filter _

/-- The order of candidates. -/
def near (gr : Graph) (a b : Nat) : Bool := decide (gr.dist a < gr.dist b ∨ gr.dist a = gr.dist b ∧ a ≤ b)

theorem near_linear (gr : Graph) : BestK.Linear gr.near where
  trans a b c ab bc := by
    simp only [near, decide_eq_true_eq] at *
    rcases ab with less | ⟨same, le⟩
    · rcases bc with less' | ⟨same', -⟩
      · exact Or.inl (less.trans less')
      · exact Or.inl (same' ▸ less)
    · rcases bc with less' | ⟨same', le'⟩
      · exact Or.inl (same ▸ less')
      · exact Or.inr ⟨same.trans same', le.trans le'⟩
  total a b := by
    simp only [near, Bool.or_eq_true, decide_eq_true_eq]
    rcases lt_trichotomy (gr.dist a) (gr.dist b) with less | same | greater
    · exact Or.inl (Or.inl less)
    · rcases Nat.le_total a b with le | le
      · exact Or.inl (Or.inr ⟨same, le⟩)
      · exact Or.inr (Or.inr ⟨same.symm, le⟩)
    · exact Or.inr (Or.inl greater)
  antisymm a b ab ba := by
    simp only [near, decide_eq_true_eq] at *
    rcases ab with less | ⟨same, le⟩
    · rcases ba with less' | ⟨same', -⟩
      · exact absurd less (lt_asymm less')
      · exact absurd same' less.ne'
    · rcases ba with less' | ⟨-, le'⟩
      · exact absurd same less'.ne'
      · exact Nat.le_antisymm le le'

end Graph

namespace GraphView

variable {g : GraphView} {n : Nat}

/-- A scratch between searches: its table stores some set. -/
def Sound (s : GraphScratch) : Prop := ∃ old, s.visited.Holds old

/-- What a search leaves. -/
structure Searched (g : GraphView) (n start : Nat) (dist : Nat → ℚ) (L : Nat) (s : GraphScratch)
    (expanded : List Nat) (visited : Finset Nat) : Prop where
  /-- Nothing is expanded twice, nor anything that cannot be reached. -/
  once : expanded.Nodup
  reached : ∀ id ∈ visited, (g.graph start dist).Reaches id
  table : s.visited.Holds visited
  sorted : s.cands.v.Pairwise fun a b => neighborLess a b = true
  distinct : (s.cands.v.map Neighbor.id).Nodup
  finished : ∀ e ∈ s.cands.v, e.expanded = true ∧ e.id ∈ expanded
  /-- The list has the best of the visited nodes. -/
  held : ∀ e ∈ s.cands.v, e.id ∈ visited ∧ e.dist = dist e.id
  size : s.cands.v.length = min L visited.card
  best : ∀ id ∈ visited, id ∉ s.cands.v.map Neighbor.id → ∀ e ∈ s.cands.v,
    neighborLess e ⟨id, dist id, false⟩ = true
  seen : ∀ id ∈ expanded, id ∈ visited
  closed : ∀ id ∈ expanded, ∀ b ∈ g.neighbors id, b ∈ visited
  /-- A list that can hold all reachable nodes has them all expanded. -/
  complete : ((g.graph start dist).reachable n).length ≤ L →
    ∀ id, (g.graph start dist).Reaches id → id ∈ expanded

section Searches

variable (wf : g.WellFormed n) (small : n < 2 ^ 32) {start : Nat} (inside : start < n) (dist : Nat → ℚ)
  {L : Nat} (positive : 1 ≤ L) (collect : Bool) {s : GraphScratch} (sound : Sound s)

include wf small inside positive sound

omit wf positive in
theorem begin_sim : ∃ s₀, begin_ dist start L s = .ok s₀ ∧
    Sim collect (Beam.start (g.graph start dist) L) s₀ := by
  obtain ⟨old, holds⟩ := sound
  have real : start < VisitedSet.kEmpty := by
    rw [VisitedSet.kEmpty, uint32Max]
    omega
  obtain ⟨visited, inserted, holds'⟩ := VisitedSet.insert_holds holds.clear real
  refine ⟨⟨visited, ((CandidateList.reset L).insert start (dist start)).2, []⟩, ?_, holds', rfl,
    fun _ => rfl⟩
  rw [begin_, inserted]
  rfl

/-- **The greedy search**: it ends, with the best of the nodes it visited. -/
theorem greedySearch_ends {dl : Option Deadline} (never : ∀ d ∈ dl, d.limited = false) {fuel : Nat}
    (enough : n < fuel) : ∃ s' expanded visited,
      g.greedySearch dist start L collect fuel s dl = .ok (s', dl) ∧
      (collect = true → s'.expanded = expanded) ∧
      g.Searched n start dist L s' expanded visited ∧ Sound s' := by
  obtain ⟨s₀, begun, sim⟩ := begin_sim small inside dist collect sound
  have good := @Beam.start_good (g.graph start dist) L positive
  obtain ⟨s', st, ran, sim', good', best, finished⟩ :=
    @loop_sim g n start L dist wf small inside _ collect _ dl never fuel 0 sim good
      (best_start positive) (show n < fuel + 0 from enough)
  have card_le : s'.cands.v.length ≤ st.visited.card := by
    rw [sim'.cands, ← List.length_map Neighbor.id, ← List.toFinset_card_of_nodup good'.inv.distinct]
    refine Finset.card_le_card fun id mem => ?_
    obtain ⟨e, e_mem, rfl⟩ := List.mem_map.mp (List.mem_toFinset.mp mem)
    exact good'.inv.seen e e_mem
  refine ⟨s', st.expanded, st.visited, ?_, sim'.expanded, ?_, st.visited, sim'.visited⟩
  · rw [greedySearch, begun]
    exact ran
  · rw [sim'.cands] at card_le
    constructor
    · exact good'.inv.once
    · exact good'.inv.reached
    · exact sim'.visited
    · rw [sim'.cands]
      exact good'.inv.ok.sorted
    · rw [sim'.cands]
      exact good'.inv.distinct
    · rw [sim'.cands]
      intro e mem
      have done := good'.inv.ok.all_expanded finished e mem
      exact ⟨done, (good'.inv.flags e mem).mp done⟩
    · rw [sim'.cands]
      exact fun e mem => ⟨good'.inv.seen e mem, best.dists e mem⟩
    · have short := good'.inv.ok.short
      rw [good'.inv.cap] at short
      rw [sim'.cands]
      rcases good'.inv.kept with all | full
      · have many : st.visited.card ≤ st.cands.v.length := by
          rw [← List.length_map Neighbor.id, ← List.toFinset_card_of_nodup good'.inv.distinct]
          exact Finset.card_le_card fun id mem => List.mem_toFinset.mpr (all id mem)
        omega
      · omega
    · rw [sim'.cands]
      exact best.lost
    · exact good'.inv.popped_seen
    · exact good'.closed
    · intro room
      rcases good'.covers finished with all | full
      · exact all
      · have among : st.expanded ⊆ (g.graph start dist).reachable n := fun id mem =>
          (Graph.mem_reachable (wf.bounded inside dist)).mpr
            (good'.inv.reached id (good'.inv.popped_seen id mem))
        have perm := (good'.inv.once.subperm among).perm_of_length_le (room.trans full)
        intro id reached
        exact perm.mem_iff.mpr ((Graph.mem_reachable (wf.bounded inside dist)).mpr reached)

end Searches

/-- Where the list can hold all reachable nodes it has them in their order. -/
theorem Searched.ids_eq {start L : Nat} {dist : Nat → ℚ} {s : GraphScratch} {expanded : List Nat}
    {visited : Finset Nat} (searched : g.Searched n start dist L s expanded visited)
    (bounded : (g.graph start dist).Bounded n)
    (room : ((g.graph start dist).reachable n).length ≤ L) :
    s.cands.v.map Neighbor.id =
      ((g.graph start dist).reachable n).mergeSort (g.graph start dist).near := by
  have whole : visited = ((g.graph start dist).reachable n).toFinset := by
    ext id
    rw [List.mem_toFinset, Graph.mem_reachable bounded]
    exact ⟨searched.reached id, fun reached => searched.seen id (searched.complete room id reached)⟩
  have card : visited.card = ((g.graph start dist).reachable n).length := by
    rw [whole, List.toFinset_card_of_nodup (Graph.nodup_reachable _ n)]
  have among : s.cands.v.map Neighbor.id ⊆ (g.graph start dist).reachable n := by
    intro id mem
    obtain ⟨e, e_mem, rfl⟩ := List.mem_map.mp mem
    exact (Graph.mem_reachable bounded).mpr (searched.reached _ (searched.held e e_mem).1)
  have perm : (s.cands.v.map Neighbor.id).Perm ((g.graph start dist).reachable n) := by
    refine (searched.distinct.subperm among).perm_of_length_le ?_
    rw [List.length_map, searched.size, card]
    exact le_min room le_rfl
  refine (BestK.sort_unique (Graph.near_linear _) ?_ perm.symm).symm
  rw [List.pairwise_map]
  refine List.Pairwise.imp_of_mem ?_ searched.sorted
  intro a b a_mem b_mem less
  rw [CandidateList.neighborLess_iff, (searched.held a a_mem).2, (searched.held b b_mem).2] at less
  exact decide_eq_true (less.imp_right fun both => ⟨both.1, both.2.le⟩)

end GraphView

namespace VamanaIndex

variable {ix : VamanaIndex}

/-- The graph of an index, with the distances of a query. -/
def graph (ix : VamanaIndex) (q : VamanaQuery) : Graph := ix.view.graph ix.medoid q.l2sq

/-- **The search** ranks the `k` reachable nodes nearest to the query by their inner products. -/
theorem search_exact (wf : ix.view.WellFormed ix.n) (small : ix.n < 2 ^ 32)
    (medoid : ix.medoid < ix.n) (q : VamanaQuery) (opts : VectorSearchOptions)
    (room : ((ix.graph q).reachable ix.n).length ≤ max opts.L (min opts.k ix.n))
    {s : GraphScratch} (sound : GraphView.Sound s) {fuel : Nat} (enough : ix.n < fuel) :
    ∃ s', ix.search q opts fuel s Deadline.unlimited =
      .ok (⟨((((ix.graph q).reachable ix.n).mergeSort (ix.graph q).near).take (min opts.k ix.n)
        |>.map fun id => (⟨id, q.ip id⟩ : ScoredDoc)).mergeSort ranksLe, false⟩, s') := by
  have bounded : (ix.graph q).Bounded ix.n := wf.bounded medoid q.l2sq
  have positive : 1 ≤ max opts.L (min opts.k ix.n) := by
    have start : ix.medoid ∈ (ix.graph q).reachable ix.n :=
      (Graph.mem_reachable bounded).mpr Relation.ReflTransGen.refl
    have := List.length_pos_of_mem start
    omega
  obtain ⟨s', expanded, visited, ran, -, searched, -⟩ :=
    @GraphView.greedySearch_ends ix.view ix.n wf small ix.medoid medoid q.l2sq
      (max opts.L (min opts.k ix.n)) positive false s sound (some Deadline.unlimited)
      (by rintro d ⟨⟩; rfl) fuel enough
  have ids := searched.ids_eq bounded room
  refine ⟨s', ?_⟩
  rw [search]
  dsimp only
  rw [ran]
  change Except.ok (_, s') = _
  have pushes : (s'.cands.v.take (min opts.k ix.n)).foldl
      (fun top c => (top.push c.id (q.ip c.id)).2) (TopK.empty (min opts.k ix.n)) =
      (((s'.cands.v.map Neighbor.id).take (min opts.k ix.n)).map
        fun id => (⟨id, q.ip id⟩ : ScoredDoc)).foldl
          (fun t c => (t.push c.doc c.score).2) (TopK.empty (min opts.k ix.n)) := by
    rw [← List.map_take, List.map_map, List.foldl_map]
    rfl
  rw [pushes, TopK.pushAll_best, ids, BestK.best, List.take_of_length_le]
  · rfl
  · rw [List.length_mergeSort, List.length_map]
    exact List.length_take_le _ _

end VamanaIndex

/-- **Greedy graph search.**  Without a deadline it ends, whatever the scratch held, and leaves
what `Searched` says: nothing expanded twice, and the best of the visited nodes, all expanded.
The cursor is at the first unexpanded entry at every step.  A search whose list can hold all
reachable nodes returns the `k` nearest of them, ranked by inner product. -/
theorem greedySearch_spec {ix : VamanaIndex} (wf : ix.view.WellFormed ix.n) (small : ix.n < 2 ^ 32)
    {s : GraphScratch} (sound : GraphView.Sound s) {fuel : Nat} (enough : ix.n < fuel) :
    (∀ start < ix.n, ∀ (dist : Nat → ℚ) (L : Nat), 1 ≤ L → ∀ (collect : Bool) (dl : Option Deadline),
      (∀ d ∈ dl, d.limited = false) →
      ∃ s₀ s' expanded visited, GraphView.begin_ dist start L s = .ok s₀ ∧
        (∀ l, ix.view.Passes dist collect s₀ l → GraphView.AtFirst l) ∧
        ix.view.greedySearch dist start L collect fuel s dl = .ok (s', dl) ∧
        (collect = true → s'.expanded = expanded) ∧
        ix.view.Searched ix.n start dist L s' expanded visited) ∧
    ∀ (q : VamanaQuery) (opts : VectorSearchOptions), ix.medoid < ix.n →
      ((ix.graph q).reachable ix.n).length ≤ max opts.L (min opts.k ix.n) →
      ∃ s', ix.search q opts fuel s Deadline.unlimited =
        .ok (⟨((((ix.graph q).reachable ix.n).mergeSort (ix.graph q).near).take (min opts.k ix.n)
          |>.map fun id => (⟨id, q.ip id⟩ : ScoredDoc)).mergeSort ranksLe, false⟩, s') := by
  constructor
  · intro start inside dist L positive collect dl never
    obtain ⟨s₀, begun, sim⟩ := GraphView.begin_sim small inside dist collect sound (g := ix.view) (L := L)
    obtain ⟨s', expanded, visited, ran, collected, searched, -⟩ :=
      GraphView.greedySearch_ends wf small inside dist positive collect sound never enough
    refine ⟨s₀, s', expanded, visited, begun, ?_, ran, collected, searched⟩
    intro l passes
    exact GraphView.passes_atFirst wf small inside passes sim (Beam.start_good positive)
  · intro q opts medoid room
    exact VamanaIndex.search_exact wf small medoid q opts room sound enough

/-- Three nodes in a ring. -/
theorem greedySearch_spec_ring : ∃ s', VamanaIndex.search ⟨3, 1, 0, [1, 1, 1], [1, 2, 0]⟩
    ⟨fun id => id, fun id => id⟩ ⟨2, 3, 1⟩ 4 ⟨VisitedSet.init, CandidateList.reset 0, []⟩
      Deadline.unlimited =
    .ok (⟨(((((VamanaIndex.graph ⟨3, 1, 0, [1, 1, 1], [1, 2, 0]⟩
      ⟨fun id => id, fun id => id⟩).reachable 3).mergeSort
        (VamanaIndex.graph ⟨3, 1, 0, [1, 1, 1], [1, 2, 0]⟩
          ⟨fun id => id, fun id => id⟩).near).take 2).map
            fun id => (⟨id, id⟩ : ScoredDoc)).mergeSort ranksLe, false⟩, s') := by
  have wf : (VamanaIndex.view ⟨3, 1, 0, [1, 1, 1], [1, 2, 0]⟩).WellFormed 3 :=
    ⟨rfl, rfl, by decide, by decide⟩
  refine (@greedySearch_spec ⟨3, 1, 0, [1, 1, 1], [1, 2, 0]⟩ wf (by decide)
    ⟨VisitedSet.init, CandidateList.reset 0, []⟩ ⟨∅, VisitedSet.holds_init⟩ 4 (by decide)).2
    ⟨fun id => id, fun id => id⟩ ⟨2, 3, 1⟩ (by decide) ?_
  refine (List.length_filter_le _ _).trans ?_
  rw [List.length_range]
  decide

end HybridSearch.Engine
