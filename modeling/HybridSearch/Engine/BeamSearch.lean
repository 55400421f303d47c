/-
# Engine.BeamSearch -- beam search over a graph

What `DiskIndex::search` computes, apart from where the records of the nodes come
from: each round pops the `W` closest candidates, then expands them one after the
other, and an expansion offers every neighbour that was not visited before.

`Inv` relates the visited set, the candidate list and the nodes popped so far.  A
candidate can leave the list only when the list is full, so a search that ends has
expanded every reachable node, or as many nodes as the list holds.

* `round_inv`: what a round keeps;
* `run_ends`: the loop ends within as many rounds as there are nodes;
* `Good.covers`: what it has expanded then;
* `run_congr`: graphs that agree on their nodes are searched alike.
-/
import HybridSearch.Engine.CandidateList
import HybridSearch.Engine.Deadline
import Mathlib.Data.Finset.Card
import Mathlib.Logic.Relation

namespace HybridSearch.Engine

set_option autoImplicit false

/-- A graph to search: its neighbour lists, and the distance that orders the candidates. -/
structure Graph where
  start : Nat
  adj : Nat → List Nat
  dist : Nat → ℚ

namespace Graph

def Reaches (g : Graph) (id : Nat) : Prop := Relation.ReflTransGen (fun a b => b ∈ g.adj a) g.start id

/-- The ids below `n`, closed under the neighbour lists. -/
structure Bounded (g : Graph) (n : Nat) : Prop where
  start : g.start < n
  adj : ∀ a < n, ∀ b ∈ g.adj a, b < n

theorem Bounded.of_reaches {g : Graph} {n : Nat} (bounded : g.Bounded n) {id : Nat}
    (reached : g.Reaches id) : id < n := by
  induction reached with
  | refl => exact bounded.start
  | tail _ step before => exact bounded.adj _ before _ step

end Graph

structure Beam where
  visited : Finset Nat
  cands : CandidateList
  /-- In the order of expansion. -/
  expanded : List Nat

namespace Beam

variable (g : Graph)

def start (L : Nat) : Beam where
  visited := {g.start}
  cands := ((CandidateList.reset L).insert g.start (g.dist g.start)).2
  expanded := []

/-- One neighbour of an expanded node. -/
def offer (st : Beam) (id : Nat) : Beam :=
  if id ∈ st.visited then st
  else { st with visited := insert id st.visited, cands := (st.cands.insert id (g.dist id)).2 }

def expand (st : Beam) (id : Nat) : Beam :=
  (g.adj id).foldl (offer g) { st with expanded := st.expanded ++ [id] }

def round (W : Nat) (st : Beam) : Beam :=
  (st.cands.popFrontier W).1.foldl (expand g) { st with cands := (st.cands.popFrontier W).2 }

/-- The loop, within its fuel, with the deadline it leaves. -/
def run (W : Nat) : Nat → Beam → Deadline → Option (Beam × Deadline)
  | 0, _, _ => none
  | fuel + 1, st, dl =>
      if st.cands.hasUnexpanded then
        let st := st.round g W
        let (fired, dl) := dl.expired
        if fired then some (st, dl) else run W fuel st dl
      else some (st, dl)

/-! ## The invariant -/

variable {g}

/-- What holds between the visited nodes, the candidates and the nodes popped so far. -/
structure Inv (g : Graph) (L : Nat) (popped : List Nat) (visited : Finset Nat) (cands : CandidateList) :
    Prop where
  ok : cands.Ok
  cap : cands.cap = L
  distinct : (cands.v.map Neighbor.id).Nodup
  seen : ∀ e ∈ cands.v, e.id ∈ visited
  flags : ∀ e ∈ cands.v, e.expanded = true ↔ e.id ∈ popped
  once : popped.Nodup
  popped_seen : ∀ id ∈ popped, id ∈ visited
  reached : ∀ id ∈ visited, g.Reaches id
  start : g.start ∈ visited
  /-- A candidate is lost only to a full list. -/
  kept : (∀ id ∈ visited, id ∈ cands.v.map Neighbor.id) ∨ cands.v.length = L

variable {L : Nat} {popped : List Nat} {visited : Finset Nat} {cands : CandidateList}

/-- Offering a node that was not visited. -/
theorem Inv.offer_new (inv : Inv g L popped visited cands) {id : Nat} (new : id ∉ visited)
    (reached : g.Reaches id) : Inv g L popped (insert id visited) (cands.insert id (g.dist id)).2 := by
  have absent : ∀ e ∈ cands.v, e.id ≠ id := fun e mem same => new (same ▸ inv.seen e mem)
  obtain ⟨ok, cap, lost, perm, full⟩ := CandidateList.insert_spec inv.ok (g.dist id) absent
  generalize (cands.insert id (g.dist id)).2 = cands' at *
  have mem_old {e : Neighbor} (mem : e ∈ cands'.v) : e = ⟨id, g.dist id, false⟩ ∨ e ∈ cands.v :=
    List.mem_cons.mp (perm.mem_iff.mp (List.mem_append_right _ mem))
  constructor
  · exact ok
  · exact cap.trans inv.cap
  · have whole : ((lost ++ cands'.v).map Neighbor.id).Nodup := by
      rw [(perm.map Neighbor.id).nodup_iff, List.map_cons, List.nodup_cons]
      refine ⟨fun mem => ?_, inv.distinct⟩
      obtain ⟨e, e_mem, same⟩ := List.mem_map.mp mem
      exact absent e e_mem same
    rw [List.map_append] at whole
    exact whole.of_append_right
  · intro e mem
    rcases mem_old mem with rfl | old
    · exact Finset.mem_insert_self ..
    · exact Finset.mem_insert_of_mem (inv.seen e old)
  · intro e mem
    rcases mem_old mem with rfl | old
    · constructor
      · intro impossible
        cases impossible
      · exact fun out => absurd (inv.popped_seen id out) new
    · exact inv.flags e old
  · exact inv.once
  · exact fun other mem => Finset.mem_insert_of_mem (inv.popped_seen other mem)
  · intro other mem
    rcases Finset.mem_insert.mp mem with rfl | old
    · exact reached
    · exact inv.reached other old
  · exact Finset.mem_insert_of_mem inv.start
  · rcases full with rfl | filled
    · rcases inv.kept with all | was_full
      · left
        intro other mem
        rw [List.nil_append] at perm
        rw [(perm.map Neighbor.id).mem_iff, List.map_cons, List.mem_cons]
        rcases Finset.mem_insert.mp mem with rfl | old
        · exact .inl rfl
        · exact .inr (all other old)
      · right
        have length := perm.length_eq
        have short := ok.short
        rw [List.nil_append, List.length_cons, was_full] at length
        rw [cap, inv.cap] at short
        omega
    · exact .inr (filled.trans inv.cap)

/-- Popping a candidate. -/
theorem Inv.pop (inv : Inv g L popped visited cands) {n : Neighbor} {cands' : CandidateList}
    (popped_is : cands.popClosestUnexpanded = some (n, cands')) :
    Inv g L (popped ++ [n.id]) visited cands' := by
  obtain ⟨ok, cap, front, back, before, after, marked⟩ := CandidateList.pop_spec inv.ok popped_is
  have ids : cands'.v.map Neighbor.id = cands.v.map Neighbor.id := by
    rw [before, after, List.map_append, List.map_append]
    rfl
  have n_mem : ({ n with expanded := false } : Neighbor) ∈ cands.v := by
    rw [before]
    exact List.mem_append_right _ (List.mem_cons_self ..)
  have n_new : n.id ∉ popped := fun out => by
    have := (inv.flags _ n_mem).mpr out
    cases this
  have distinct' := inv.distinct
  rw [before, List.map_append, List.map_cons] at distinct'
  have apart : ∀ e ∈ front ++ back, e.id ≠ n.id := by
    intro e mem same
    obtain ⟨_, tail, cross⟩ := List.nodup_append.mp distinct'
    rcases List.mem_append.mp mem with left | right
    · exact cross e.id (List.mem_map_of_mem left) n.id (List.mem_cons_self ..) same
    · exact (List.nodup_cons.mp tail).1 (same ▸ List.mem_map_of_mem right)
  constructor
  · exact ok
  · exact cap.trans inv.cap
  · rw [ids]
    exact inv.distinct
  · intro e mem
    have : e.id ∈ cands.v.map Neighbor.id := ids ▸ List.mem_map_of_mem mem
    obtain ⟨e', e'_mem, same⟩ := List.mem_map.mp this
    exact same ▸ inv.seen e' e'_mem
  · intro e mem
    rw [after, List.mem_append, List.mem_cons] at mem
    rw [List.mem_append, List.mem_singleton]
    have other (side : e ∈ front ++ back) : e.expanded = true ↔ e.id ∈ popped ∨ e.id = n.id := by
      have old : e ∈ cands.v := by
        rw [before, List.mem_append, List.mem_cons]
        exact (List.mem_append.mp side).imp_right .inr
      rw [inv.flags e old]
      exact ⟨.inl, fun either => either.resolve_right (apart e side)⟩
    rcases mem with left | rfl | right
    · exact other (List.mem_append_left _ left)
    · exact ⟨fun _ => .inr rfl, fun _ => marked⟩
    · exact other (List.mem_append_right _ right)
  · rw [List.nodup_append]
    refine ⟨inv.once, List.nodup_singleton _, ?_⟩
    intro a a_mem b b_mem same
    exact n_new (List.mem_singleton.mp b_mem ▸ same ▸ a_mem)
  · intro id mem
    rcases List.mem_append.mp mem with old | last
    · exact inv.popped_seen id old
    · rw [List.mem_singleton.mp last]
      exact inv.seen { n with expanded := false } n_mem
  · exact inv.reached
  · exact inv.start
  · rw [ids]
    refine inv.kept.imp_right fun full => ?_
    rw [← full, ← List.length_map Neighbor.id, ids, List.length_map]

theorem Inv.frontier (inv : Inv g L popped visited cands) (w : Nat) :
    Inv g L (popped ++ (cands.popFrontier w).1) visited (cands.popFrontier w).2 := by
  induction w generalizing popped cands with
  | zero =>
      rw [CandidateList.popFrontier, List.append_nil]
      exact inv
  | succ w ih =>
      rw [CandidateList.popFrontier]
      cases popped_is : cands.popClosestUnexpanded with
      | none =>
          dsimp only
          rw [List.append_nil]
          exact inv
      | some pair =>
          have next := ih (inv.pop popped_is)
          rw [List.append_assoc] at next
          exact next

/-! ## Expansion -/

variable {st : Beam}

/-- What holds between rounds: every node popped is expanded, and its neighbours are visited. -/
structure Good (g : Graph) (L : Nat) (st : Beam) : Prop where
  inv : Inv g L st.expanded st.visited st.cands
  closed : ∀ a ∈ st.expanded, ∀ b ∈ g.adj a, b ∈ st.visited

/-- What offering a list of nodes keeps. -/
theorem foldl_offer (ids : List Nat) (inv : Inv g L popped st.visited st.cands)
    (reached : ∀ id ∈ ids, g.Reaches id) :
    let st' := ids.foldl (offer g) st
    Inv g L popped st'.visited st'.cands ∧ st'.expanded = st.expanded ∧
      st.visited ⊆ st'.visited ∧ ∀ id ∈ ids, id ∈ st'.visited := by
  induction ids generalizing st with
  | nil => exact ⟨inv, rfl, Finset.Subset.refl _, fun id mem => absurd mem List.not_mem_nil⟩
  | cons id rest ih =>
      intro st'
      have later : ∀ other ∈ rest, g.Reaches other := fun other mem =>
        reached other (List.mem_cons_of_mem _ mem)
      have first : Inv g L popped (offer g st id).visited (offer g st id).cands ∧
          (offer g st id).expanded = st.expanded ∧
          st.visited ⊆ (offer g st id).visited ∧ id ∈ (offer g st id).visited := by
        rw [offer]
        split_ifs with old
        · exact ⟨inv, rfl, Finset.Subset.refl _, old⟩
        · exact ⟨inv.offer_new old (reached id (List.mem_cons_self ..)), rfl,
            Finset.subset_insert .., Finset.mem_insert_self ..⟩
      obtain ⟨inv', same, grew, here⟩ := first
      obtain ⟨inv'', same', grew', all⟩ := ih inv' later
      refine ⟨inv'', same'.trans same, grew.trans grew', ?_⟩
      intro other mem
      rcases List.mem_cons.mp mem with rfl | tail
      · exact grew' here
      · exact all other tail

/-- What expanding the popped nodes keeps. -/
theorem foldl_expand (ids : List Nat) (inv : Inv g L popped st.visited st.cands)
    (among : ∀ id ∈ ids, id ∈ popped)
    (closed : ∀ a ∈ st.expanded, ∀ b ∈ g.adj a, b ∈ st.visited) :
    let st' := ids.foldl (expand g) st
    Inv g L popped st'.visited st'.cands ∧ st'.expanded = st.expanded ++ ids ∧
      ∀ a ∈ st'.expanded, ∀ b ∈ g.adj a, b ∈ st'.visited := by
  induction ids generalizing st with
  | nil => exact ⟨inv, (List.append_nil _).symm, closed⟩
  | cons id rest ih =>
      have reached : g.Reaches id :=
        inv.reached id (inv.popped_seen id (among id (List.mem_cons_self ..)))
      obtain ⟨inv', same, grew, here⟩ := @foldl_offer g L popped
        { st with expanded := st.expanded ++ [id] } (g.adj id) inv
        (fun b mem => reached.tail mem)
      have closed' : ∀ a ∈ (expand g st id).expanded, ∀ b ∈ g.adj a, b ∈ (expand g st id).visited := by
        intro a mem b b_mem
        rw [expand, same, List.mem_append, List.mem_singleton] at mem
        rcases mem with old | rfl
        · exact grew (closed a old b b_mem)
        · exact here b b_mem
      obtain ⟨inv'', all, closed''⟩ :=
        @ih (expand g st id) inv' (fun other mem => among other (List.mem_cons_of_mem _ mem)) closed'
      refine ⟨inv'', ?_, closed''⟩
      have last : (expand g st id).expanded = st.expanded ++ [id] := same
      rw [List.foldl_cons, all, last, List.append_assoc]
      rfl

/-- **What a round keeps**: it expands the nodes of its frontier. -/
theorem round_inv (good : Good g L st) (W : Nat) :
    Good g L (st.round g W) ∧ (st.round g W).expanded = st.expanded ++ (st.cands.popFrontier W).1 := by
  obtain ⟨inv, all, closed⟩ := @foldl_expand g L _ { st with cands := (st.cands.popFrontier W).2 }
    (st.cands.popFrontier W).1 (good.inv.frontier W)
    (fun id mem => List.mem_append_right _ mem) good.closed
  exact ⟨⟨all ▸ inv, closed⟩, all⟩

theorem frontier_nonempty {l : CandidateList} (unfinished : l.hasUnexpanded = true) {W : Nat} (pos : 0 < W) :
    0 < (l.popFrontier W).1.length := by
  obtain ⟨w, rfl⟩ := Nat.exists_eq_succ_of_ne_zero pos.ne'
  obtain ⟨n, l', popped⟩ := CandidateList.pop_isSome unfinished
  rw [CandidateList.popFrontier, popped]
  exact Nat.succ_pos _

theorem start_good (pos : 0 < L) : Good g L (start g L) where
  inv := by
    obtain ⟨ok, cap, lost, perm, full⟩ := @CandidateList.insert_spec (CandidateList.reset L)
      (CandidateList.ok_reset L) g.start (g.dist g.start) (fun e mem => absurd mem List.not_mem_nil)
    rw [start]
    generalize ((CandidateList.reset L).insert g.start (g.dist g.start)).2 = cands at *
    have all : ∀ e ∈ cands.v, e = ⟨g.start, g.dist g.start, false⟩ := fun e mem =>
      List.mem_singleton.mp (perm.mem_iff.mp (List.mem_append_right _ mem))
    have kept : lost = [] := by
      rcases full with none_lost | filled
      · exact none_lost
      · have length := perm.length_eq
        have filled' : cands.v.length = L := filled
        rw [List.length_append, filled'] at length
        have one : (⟨g.start, g.dist g.start, false⟩ :: (CandidateList.reset L).v).length = 1 := rfl
        rw [one] at length
        exact List.length_eq_zero_iff.mp (by omega)
    rw [kept, List.nil_append] at perm
    constructor
    · exact ok
    · exact cap
    · rw [(perm.map Neighbor.id).nodup_iff]
      exact List.nodup_singleton _
    · intro e mem
      rw [all e mem]
      exact Finset.mem_singleton_self _
    · intro e mem
      rw [all e mem]
      constructor
      · intro impossible
        cases impossible
      · intro impossible
        cases impossible
    · exact List.nodup_nil
    · exact fun id impossible => by cases impossible
    · intro id mem
      rw [Finset.mem_singleton.mp mem]
      exact Relation.ReflTransGen.refl
    · exact Finset.mem_singleton_self _
    · left
      intro id mem
      rw [(perm.map Neighbor.id).mem_iff, Finset.mem_singleton.mp mem]
      exact List.mem_singleton_self _
  closed _ mem := by cases mem

/-! ## The run -/

/-- Expanded nodes are distinct and lie below `n`. -/
theorem Good.expanded_le (good : Good g L st) {n : Nat} (bounded : g.Bounded n) : st.expanded.length ≤ n := by
  have inside : st.expanded ⊆ List.range n := by
    intro id mem
    exact List.mem_range.mpr (bounded.of_reaches (good.inv.reached id (good.inv.popped_seen id mem)))
  have le := (good.inv.once.subperm inside).length_le
  rwa [List.length_range] at le

/-- **The loop ends** within as many rounds as there are nodes left to expand, whatever the
deadline does. -/
theorem run_ends {n W : Nat} (bounded : g.Bounded n) (pos : 0 < W) {fuel : Nat} {dl : Deadline}
    (good : Good g L st) (enough : n < fuel + st.expanded.length) :
    ∃ st' dl', run g W fuel st dl = some (st', dl') ∧ Good g L st' := by
  induction fuel generalizing st dl with
  | zero =>
      have := good.expanded_le bounded
      omega
  | succ fuel ih =>
      rw [run]
      by_cases unfinished : st.cands.hasUnexpanded = true
      · obtain ⟨good', grew⟩ := round_inv good W
        have progress := frontier_nonempty unfinished pos
        rw [if_pos unfinished]
        dsimp only
        split_ifs with fired
        · exact ⟨_, _, rfl, good'⟩
        · refine ih good' ?_
          rw [grew, List.length_append]
          omega
      · rw [if_neg unfinished]
        exact ⟨st, dl, rfl, good⟩

theorem start_congr {g' : Graph} (first : g.start = g'.start) (dist : g.dist g.start = g'.dist g.start) (L : Nat) :
    start g L = start g' L := by
  rw [start, start, dist, first]

/-- **Graphs that agree on their nodes** are searched alike. -/
theorem run_congr {g' : Graph} {n W fuel : Nat} (bounded : g.Bounded n) (dist : ∀ id < n, g.dist id = g'.dist id)
    (adj : ∀ id < n, g.adj id = g'.adj id) {dl : Deadline} (good : Good g L st) :
    run g W fuel st dl = run g' W fuel st dl := by
  induction fuel generalizing st dl with
  | zero => rfl
  | succ fuel ih =>
      obtain ⟨good', grew⟩ := round_inv good W
      have expands (st : Beam) {id : Nat} (inside : id < n) : expand g st id = expand g' st id := by
        rw [expand, expand, ← adj id inside]
        refine List.foldl_ext _ _ _ fun st' nb mem => ?_
        rw [offer, offer, dist nb (bounded.adj id inside nb mem)]
      have same : st.round g W = st.round g' W := by
        rw [round, round]
        refine List.foldl_ext _ _ _ fun st' id mem => expands st' ?_
        have popped : id ∈ (st.round g W).expanded := grew ▸ List.mem_append_right _ mem
        exact bounded.of_reaches (good'.inv.reached id (good'.inv.popped_seen id popped))
      rw [run, run, ← same]
      dsimp only
      rw [ih good']

/-- Without a deadline the loop ends with nothing left to expand. -/
theorem run_finished {W fuel : Nat} {st' : Beam} {dl' : Deadline}
    (ran : run g W fuel st Deadline.unlimited = some (st', dl')) :
    st'.cands.hasUnexpanded = false ∧ dl' = Deadline.unlimited := by
  induction fuel generalizing st with
  | zero => cases ran
  | succ fuel ih =>
      rw [run] at ran
      by_cases unfinished : st.cands.hasUnexpanded = true
      · rw [if_pos unfinished] at ran
        exact ih ran
      · rw [if_neg unfinished] at ran
        cases ran
        exact ⟨Bool.eq_false_iff.mpr unfinished, rfl⟩

/-- **What a finished search has expanded**: every reachable node, or as many as the list holds. -/
theorem Good.covers (good : Good g L st) (finished : st.cands.hasUnexpanded = false) :
    (∀ id, g.Reaches id → id ∈ st.expanded) ∨ L ≤ st.expanded.length := by
  have listed : ∀ id ∈ st.cands.v.map Neighbor.id, id ∈ st.expanded := by
    intro id mem
    obtain ⟨e, e_mem, rfl⟩ := List.mem_map.mp mem
    exact (good.inv.flags e e_mem).mp (good.inv.ok.all_expanded finished e e_mem)
  rcases good.inv.kept with all | full
  · left
    intro id reached
    have visited : id ∈ st.visited := by
      induction reached with
      | refl => exact good.inv.start
      | tail _ step ih => exact good.closed _ (listed _ (all _ ih)) _ step
    exact listed id (all id visited)
  · right
    have le := (good.inv.distinct.subperm listed).length_le
    rwa [List.length_map, full] at le

end Beam

end HybridSearch.Engine
